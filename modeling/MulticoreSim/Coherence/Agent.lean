import MulticoreSim.Coherence.Message

/-! # The per-block agents

One state machine per protocol. An agent answers its processor or sends one
message to the directory; a message it does not expect makes it throw.
-/

namespace Coherence

/-- What an agent does on one message. -/
structure AgentStep (State : Type) where
  state : State
  /-- `send_GETS` … `send_DATA_dir`: the kind pushed towards the directory. -/
  toDir : Option MessageKind := none
  /-- `send_DATA_proc`. -/
  toProc : Bool := false
  /-- `++cache_misses`. -/
  miss : Bool := false
  deriving DecidableEq, Repr

/-- `bad_msg`. -/
def badMsg (protocol state side : String) (k : MessageKind) : String :=
  protocol ++ ": " ++ state ++ " state shouldn't see " ++ side ++ " message: " ++ k.str

/-- `do_proc_in_transient`. -/
def procInTransient (protocol : String) : String :=
  protocol ++ ": transient state should not see another proc request"

/-- `do_proc_I` of every protocol with a read-only copy. -/
def procMiss {State : Type} (protocol : String) (IS IM : State) :
    MessageKind → Except String (AgentStep State)
  | .load => .ok { state := IS, toDir := some .gets, miss := true }
  | .store => .ok { state := IM, toDir := some .getm, miss := true }
  | k => .error (badMsg protocol "I" "proc" k)

/-- `do_proc_*` of a readable state: loads are answered, a store asks for more. -/
def procRead {State : Type} (protocol name : String) (state waiting : State) (ask : MessageKind) :
    MessageKind → Except String (AgentStep State)
  | .load => .ok { state := state, toProc := true }
  | .store => .ok { state := waiting, toDir := some ask }
  | k => .error (badMsg protocol name "proc" k)

/-- `do_proc_M`. -/
def procOwn {State : Type} (protocol : String) (M : State) :
    MessageKind → Except String (AgentStep State)
  | .load | .store => .ok { state := M, toProc := true }
  | k => .error (badMsg protocol "M" "proc" k)

/-- `do_ntwk_S` and the invalidation of an upgrading sharer. -/
def answerInvalid {State : Type} (next : State) : AgentStep State :=
  { state := next, toDir := some .invack }

/-- A recall: the data goes back to the directory. -/
def answerRecall {State : Type} (next : State) : AgentStep State :=
  { state := next, toDir := some .data }

/-- A grant: the processor gets its data. -/
def acceptGrant {State : Type} (next : State) : AgentStep State :=
  { state := next, toProc := true }

inductive MiState where
  | I | M | IM
  deriving DecidableEq, Repr

namespace MiState

def processProcRequest : MiState → MessageKind → Except String (AgentStep MiState)
  | .I, .load | .I, .store => .ok { state := .IM, toDir := some .getm, miss := true }
  | .I, k => .error (badMsg "MI" "I" "proc" k)
  | .M, k => procOwn "MI" .M k
  | .IM, _ => .error (procInTransient "MI")

def processNtwkRequest : MiState → MessageKind → Except String (AgentStep MiState)
  | .I, k => .error (badMsg "MI" "I" "ntwk" k)
  | .M, .recallGotoI => .ok (answerRecall .I)
  | .M, k => .error (badMsg "MI" "M" "ntwk" k)
  | .IM, .data => .ok (acceptGrant .M)
  | .IM, k => .error (badMsg "MI" "IM" "ntwk" k)

end MiState

inductive MsiState where
  | I | S | M | IS | IM | SM
  deriving DecidableEq, Repr

namespace MsiState

def processProcRequest : MsiState → MessageKind → Except String (AgentStep MsiState)
  | .I, k => procMiss "MSI" .IS .IM k
  | .S, k => procRead "MSI" "S" .S .SM .getm k
  | .M, k => procOwn "MSI" .M k
  | .IS, _ | .IM, _ | .SM, _ => .error (procInTransient "MSI")

def processNtwkRequest : MsiState → MessageKind → Except String (AgentStep MsiState)
  | .I, k => .error (badMsg "MSI" "I" "ntwk" k)
  | .S, .reqInvalid => .ok (answerInvalid .I)
  | .S, k => .error (badMsg "MSI" "S" "ntwk" k)
  | .M, .recallGotoI => .ok (answerRecall .I)
  | .M, .recallGotoS => .ok (answerRecall .S)
  | .M, k => .error (badMsg "MSI" "M" "ntwk" k)
  | .IS, .data => .ok (acceptGrant .S)
  | .IS, k => .error (badMsg "MSI" "IS" "ntwk" k)
  | .IM, .data => .ok (acceptGrant .M)
  | .IM, k => .error (badMsg "MSI" "IM" "ntwk" k)
  | .SM, .reqInvalid => .ok (answerInvalid .IM)
  | .SM, .ack | .SM, .data => .ok (acceptGrant .M)
  | .SM, k => .error (badMsg "MSI" "SM" "ntwk" k)

end MsiState

inductive MesiState where
  | I | S | E | M | IS | IM | SM | EM
  deriving DecidableEq, Repr

namespace MesiState

def processProcRequest : MesiState → MessageKind → Except String (AgentStep MesiState)
  | .I, k => procMiss "MESI" .IS .IM k
  | .S, k => procRead "MESI" "S" .S .SM .getm k
  | .E, k => procRead "MESI" "E" .E .EM .getx k
  | .M, k => procOwn "MESI" .M k
  | .IS, _ | .IM, _ | .SM, _ | .EM, _ => .error (procInTransient "MESI")

def processNtwkRequest : MesiState → MessageKind → Except String (AgentStep MesiState)
  | .I, k => .error (badMsg "MESI" "I" "ntwk" k)
  | .S, .reqInvalid => .ok (answerInvalid .I)
  | .S, k => .error (badMsg "MESI" "S" "ntwk" k)
  | .E, .recallGotoI => .ok (answerRecall .I)
  | .E, .recallGotoS => .ok (answerRecall .S)
  | .E, k => .error (badMsg "MESI" "E" "ntwk" k)
  | .M, .recallGotoI => .ok (answerRecall .I)
  | .M, .recallGotoS => .ok (answerRecall .S)
  | .M, k => .error (badMsg "MESI" "M" "ntwk" k)
  | .IS, .data => .ok (acceptGrant .S)
  | .IS, .dataE => .ok (acceptGrant .E)
  | .IS, k => .error (badMsg "MESI" "IS" "ntwk" k)
  | .IM, .data => .ok (acceptGrant .M)
  | .IM, k => .error (badMsg "MESI" "IM" "ntwk" k)
  | .SM, .reqInvalid => .ok (answerInvalid .IM)
  | .SM, .ack | .SM, .data => .ok (acceptGrant .M)
  | .SM, k => .error (badMsg "MESI" "SM" "ntwk" k)
  | .EM, .recallGotoI => .ok (answerRecall .IM)
  | .EM, .recallGotoS => .ok (answerRecall .SM)
  | .EM, .ack | .EM, .data => .ok (acceptGrant .M)
  | .EM, k => .error (badMsg "MESI" "EM" "ntwk" k)

end MesiState

inductive MosiState where
  | I | S | M | O | IS | IM | SM | OM
  deriving DecidableEq, Repr

namespace MosiState

def processProcRequest : MosiState → MessageKind → Except String (AgentStep MosiState)
  | .I, k => procMiss "MOSI" .IS .IM k
  | .S, k => procRead "MOSI" "S" .S .SM .getm k
  | .M, k => procOwn "MOSI" .M k
  | .O, k => procRead "MOSI" "O" .O .OM .getm k
  | .IS, _ | .IM, _ | .SM, _ | .OM, _ => .error (procInTransient "MOSI")

def processNtwkRequest : MosiState → MessageKind → Except String (AgentStep MosiState)
  | .I, k => .error (badMsg "MOSI" "I" "ntwk" k)
  | .S, .reqInvalid => .ok (answerInvalid .I)
  | .S, k => .error (badMsg "MOSI" "S" "ntwk" k)
  | .M, .recallGotoI => .ok (answerRecall .I)
  | .M, .recallGotoS => .ok (answerRecall .O)
  | .M, k => .error (badMsg "MOSI" "M" "ntwk" k)
  | .O, .recallGotoI => .ok (answerRecall .I)
  | .O, .recallGotoS => .ok (answerRecall .O)
  | .O, k => .error (badMsg "MOSI" "O" "ntwk" k)
  | .IS, .data => .ok (acceptGrant .S)
  | .IS, k => .error (badMsg "MOSI" "IS" "ntwk" k)
  | .IM, .data => .ok (acceptGrant .M)
  | .IM, k => .error (badMsg "MOSI" "IM" "ntwk" k)
  | .SM, .reqInvalid => .ok (answerInvalid .IM)
  | .SM, .ack | .SM, .data => .ok (acceptGrant .M)
  | .SM, k => .error (badMsg "MOSI" "SM" "ntwk" k)
  | .OM, .recallGotoS => .ok (answerRecall .OM)
  | .OM, .recallGotoI => .ok (answerRecall .IM)
  -- Unlike the other upgrading states, OM does not take DATA.
  | .OM, .ack => .ok (acceptGrant .M)
  | .OM, k => .error (badMsg "MOSI" "OM" "ntwk" k)

end MosiState

inductive MoesifState where
  | I | S | E | M | F | O | IS | IM | SM | EM | FM | OM
  deriving DecidableEq, Repr

namespace MoesifState

def processProcRequest : MoesifState → MessageKind → Except String (AgentStep MoesifState)
  | .I, k => procMiss "MOESIF" .IS .IM k
  | .S, k => procRead "MOESIF" "S" .S .SM .getm k
  | .E, k => procRead "MOESIF" "E" .E .EM .getx k
  | .M, k => procOwn "MOESIF" .M k
  | .F, k => procRead "MOESIF" "F" .F .FM .getm k
  | .O, k => procRead "MOESIF" "O" .O .OM .getm k
  | .IS, _ | .IM, _ | .SM, _ | .EM, _ | .FM, _ | .OM, _ => .error (procInTransient "MOESIF")

def processNtwkRequest : MoesifState → MessageKind → Except String (AgentStep MoesifState)
  | .I, k => .error (badMsg "MOESIF" "I" "ntwk" k)
  | .S, .reqInvalid => .ok (answerInvalid .I)
  | .S, k => .error (badMsg "MOESIF" "S" "ntwk" k)
  | .E, .recallGotoI => .ok (answerRecall .I)
  | .E, .recallGotoS => .ok (answerRecall .F)
  | .E, k => .error (badMsg "MOESIF" "E" "ntwk" k)
  | .M, .recallGotoI => .ok (answerRecall .I)
  | .M, .recallGotoS => .ok (answerRecall .O)
  | .M, k => .error (badMsg "MOESIF" "M" "ntwk" k)
  | .F, .recallGotoI => .ok (answerRecall .I)
  | .F, .recallGotoS => .ok (answerRecall .F)
  | .F, k => .error (badMsg "MOESIF" "F" "ntwk" k)
  | .O, .recallGotoI => .ok (answerRecall .I)
  | .O, .recallGotoS => .ok (answerRecall .O)
  | .O, k => .error (badMsg "MOESIF" "O" "ntwk" k)
  | .IS, .data => .ok (acceptGrant .S)
  | .IS, .dataE => .ok (acceptGrant .E)
  | .IS, k => .error (badMsg "MOESIF" "IS" "ntwk" k)
  | .IM, .data => .ok (acceptGrant .M)
  | .IM, k => .error (badMsg "MOESIF" "IM" "ntwk" k)
  | .SM, .reqInvalid => .ok (answerInvalid .IM)
  | .SM, .ack | .SM, .data => .ok (acceptGrant .M)
  | .SM, k => .error (badMsg "MOESIF" "SM" "ntwk" k)
  | .EM, .recallGotoI => .ok (answerRecall .IM)
  | .EM, .recallGotoS => .ok (answerRecall .FM)
  | .EM, .ack | .EM, .data => .ok (acceptGrant .M)
  | .EM, k => .error (badMsg "MOESIF" "EM" "ntwk" k)
  | .FM, .recallGotoI => .ok (answerRecall .IM)
  | .FM, .recallGotoS => .ok (answerRecall .FM)
  | .FM, .ack | .FM, .data => .ok (acceptGrant .M)
  | .FM, k => .error (badMsg "MOESIF" "FM" "ntwk" k)
  | .OM, .recallGotoS => .ok (answerRecall .OM)
  | .OM, .recallGotoI => .ok (answerRecall .IM)
  | .OM, .ack | .OM, .data => .ok (acceptGrant .M)
  | .OM, k => .error (badMsg "MOESIF" "OM" "ntwk" k)

end MoesifState

end Coherence
