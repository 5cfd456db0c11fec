import MulticoreSim.Coherence.Uplink

/-! # Requests to write, and what becomes of them

A core asks the directory for the right to write a block by a GETM or a GETX. The
messages of its node tell whether it has asked, was answered, and has been told to give
the block up since; an agent is in `M` exactly when its latest request stands granted.
-/

namespace Coherence

/-- How far a core's request to write a block has come. -/
inductive Licence where
  | none | asked | granted
  deriving DecidableEq, Repr

namespace Licence

/-- After a message to the directory. -/
def sent : Licence → MessageKind → Licence
  | _, .getm | _, .getx => .asked
  | l, _ => l

/-- After a message from the directory: the answer, or an order to give the block up. -/
def received : Licence → MessageKind → Licence
  | .asked, .data | .asked, .ack => .granted
  | .granted, .recallGotoI | .granted, .recallGotoS | .granted, .reqInvalid => .none
  | l, _ => l

/-- After a message that its node has sent, where it is about block `b`. -/
def said (b : BlockId) (l : Licence) (m : Message) : Licence := if m.block = b then l.sent m.kind else l

/-- After a message that its node has taken in, where it is about block `b`. -/
def heard (b : BlockId) (l : Licence) (m : Message) : Licence :=
  if m.block = b then l.received m.kind else l

theorem sent_quiet {k : MessageKind} (quiet : k ≠ .getm ∧ k ≠ .getx) (l : Licence) : l.sent k = l := by
  cases k with
  | getm => exact absurd rfl quiet.1
  | getx => exact absurd rfl quiet.2
  | nop | load | store | gets | data | dataWb | reqInvalid | invack | ack | dataE | dataF | recallGotoI
  | recallGotoS => rfl

/-- Messages that ask for nothing. -/
theorem foldl_said_quiet {b : BlockId} {messages : List Message}
    (quiet : ∀ m ∈ messages, m.kind ≠ .getm ∧ m.kind ≠ .getx) (l : Licence) :
    messages.foldl (said b) l = l := by
  induction messages with
  | nil => rfl
  | cons m rest ih =>
      have first : said b l m = l := by
        unfold said
        rw [sent_quiet (quiet m List.mem_cons_self), ite_self]
      rw [List.foldl_cons, first]
      exact ih fun m mem => quiet m (List.mem_cons_of_mem _ mem)

end Licence

/-! ## Agents -/

/-- The state `M` of a protocol's agents. -/
def Protocol.modified : (p : Protocol) → p.fsm.AgentState
  | .MI => MiState.M
  | .MSI => MsiState.M
  | .MESI => MesiState.M
  | .MOSI => MosiState.M
  | .MOESIF => MoesifState.M

instance {p : Protocol} : DecidableEq p.fsm.AgentState := by
  cases p with
  | MI => exact inferInstanceAs (DecidableEq MiState)
  | MSI => exact inferInstanceAs (DecidableEq MsiState)
  | MESI => exact inferInstanceAs (DecidableEq MesiState)
  | MOSI => exact inferInstanceAs (DecidableEq MosiState)
  | MOESIF => exact inferInstanceAs (DecidableEq MoesifState)

/-- What an agent's state says of its core's requests to write. -/
def Protocol.licence (p : Protocol) (a : p.fsm.AgentState) : Licence :=
  if a = p.modified then .granted
  else if (p.laws.view a).want = .write then .asked
  else .none

theorem licence_initial (p : Protocol) : p.licence p.fsm.initial = .none := by
  cases p <;> rfl

theorem licence_granted {p : Protocol} {a : p.fsm.AgentState} :
    p.licence a = .granted ↔ a = p.modified := by
  unfold Protocol.licence
  split
  · next here => exact iff_of_true rfl here
  · next elsewhere =>
      split
      · exact iff_of_false nofun elsewhere
      · exact iff_of_false nofun elsewhere

/-- A processor request moves an agent as what it sends to the directory says. -/
theorem licence_proc {p : Protocol} {a : p.fsm.AgentState} {k : MessageKind}
    {t : AgentStep p.fsm.AgentState} (step : p.fsm.processProcRequest a k = .ok t) :
    p.licence t.state = t.toDir.toList.foldl Licence.sent (p.licence a) := by
  cases p with
  | MI | MSI | MESI | MOSI | MOESIF => cases a <;> cases k <;> cases step <;> rfl

/-- A message of the directory moves an agent as its kind says; the answer asks for nothing. -/
theorem licence_ntwk {p : Protocol} {a : p.fsm.AgentState} {k : MessageKind}
    {t : AgentStep p.fsm.AgentState} (step : p.fsm.processNtwkRequest a k = .ok t) :
    p.licence t.state = (p.licence a).received k ∧ ∀ k' ∈ t.toDir, k' = .invack ∨ k' = .data := by
  cases p with
  | MI | MSI | MESI | MOSI | MOESIF =>
      cases a <;> cases k <;> cases step <;> exact ⟨rfl, by simp [answerInvalid, answerRecall, acceptGrant]⟩

/-! ## Nodes -/

variable {F : ProtocolFsm} {π : CpuPort}

/-- The licence after a tick that leads from `n` to `n'`: after the messages pushed in it, and
    then the message taken in. -/
def CpuNode.licence (n n' : CpuNode F π) (b : BlockId) (l : Licence) : Licence :=
  n.ntwkIn.toList.foldl (Licence.heard b)
    ((n.pushed n').foldl (Licence.said b) l)

/-- What each core's messages about each block tell. -/
abbrev Licences := NodeId → BlockId → Licence

/-- The tick of a node notes its messages. -/
def System.licences (σ : System F π) (a : Action π) (σ' : System F π) (h : Licences) : Licences :=
  match a with
  | .tick i => Function.update h i fun b => (σ.cpus i).licence (σ'.cpus i) b (h i b)
  | .tock _ | .deliver _ | .external _ _ | .dirTick | .dirTock | .dirDeliver _ => h

section

variable {p : Protocol} {π : CpuPort} {s : Settings} {i : NodeId} {n n' : CpuNode p.fsm π}
  {st st' : CoherenceStats}

/-- The processor half of a tick moves the agents as the messages it pushes say. -/
theorem tickProc_licence (step : n.tickProc s i st = .ok (n', st')) :
    ∃ messages, n'.ntwkOutNext = n.ntwkOutNext ++ messages ∧ n'.ntwkIn = n.ntwkIn ∧
      ∀ b, p.licence (n'.agents b) = messages.foldl (Licence.said b) (p.licence (n.agents b)) := by
  unfold CpuNode.tickProc at step
  split at step
  · cases step
    exact ⟨[], (List.append_nil _).symm, rfl, fun _ => rfl⟩
  · next m _ =>
      split at step
      · cases step
      · next a answer =>
          cases step
          refine ⟨_, rfl, rfl, fun b => ?_⟩
          by_cases here : b = m.block
          · subst here
            simp only [CpuNode.apply, Function.update_self, licence_proc answer]
            cases a.toDir with
            | none => rfl
            | some k => simp [Licence.said, Message.make]
          · simp only [CpuNode.apply, Function.update_of_ne here]
            cases a.toDir with
            | none => rfl
            | some k => simp [Licence.said, Message.make, Ne.symm here]

/-- The network half moves them as the message taken in says, and asks for nothing. -/
theorem tickNtwk_licence (step : n.tickNtwk s i st = .ok (n', st')) :
    ∃ messages, n'.ntwkOutNext = n.ntwkOutNext ++ messages ∧
      (∀ m ∈ messages, m.kind ≠ .getm ∧ m.kind ≠ .getx) ∧
      ∀ b, p.licence (n'.agents b) =
        n.ntwkIn.toList.foldl (Licence.heard b) (p.licence (n.agents b)) := by
  unfold CpuNode.tickNtwk at step
  split at step
  · next free =>
      cases step
      exact ⟨[], (List.append_nil _).symm, nofun, fun _ => by rw [free]; rfl⟩
  · next m taken =>
      split at step
      · cases step
      · next a answer =>
          cases step
          obtain ⟨moved, asks⟩ := licence_ntwk answer
          refine ⟨_, rfl, fun sent mem => ?_, fun b => ?_⟩
          · obtain ⟨k, answered, rfl⟩ := List.mem_map.mp (Option.toList_map .. ▸ mem)
            rcases asks k (Option.mem_toList.mp answered) with rfl | rfl <;> exact ⟨nofun, nofun⟩
          · rw [taken, Option.toList_some, List.foldl_cons, List.foldl_nil]
            by_cases here : m.block = b
            · subst here
              simp only [CpuNode.apply, Function.update_self, moved, Licence.heard, if_true]
            · simp only [CpuNode.apply, Function.update_of_ne (Ne.symm here), Licence.heard, if_neg here]

/-- A tick moves the agents as its messages say. -/
theorem tick_licence {R : π.State → BlockId → Prop} (laws : PortLaws π R)
    (step : n.tick s i st = .ok (n', st')) (b : BlockId) :
    p.licence (n'.agents b) = n.licence n' b (p.licence (n.agents b)) := by
  unfold CpuNode.tick at step
  simp only at step
  split at step
  · cases step
  · next mid stMid proc =>
      obtain ⟨asked, out, taken, moved⟩ := tickProc_licence proc
      obtain ⟨answered, out', quiet, heard⟩ := tickNtwk_licence step
      have notices : ∀ m ∈ (π.tick s i n.cpu n.cpuInNext).sends, m.kind ≠ .getm ∧ m.kind ≠ .getx := by
        intro m mem
        rw [(laws.tick_sends s i n.cpu n.cpuInNext m mem).2.2]
        exact ⟨nofun, nofun⟩
      have pushed : n.pushed n' = (π.tick s i n.cpu n.cpuInNext).sends ++ asked ++ answered := by
        apply CpuNode.pushed_of
        rw [out', out]
        simp only [CpuNode.portStep, List.append_assoc]
      unfold CpuNode.licence
      rw [pushed, List.foldl_append, List.foldl_append, Licence.foldl_said_quiet notices,
        Licence.foldl_said_quiet quiet, heard, moved, taken]
      rfl

/-- Along a run with its notes, every agent is where the messages of its node have led it. -/
theorem licences_run {R : π.State → BlockId → Prop} (laws : PortLaws π R)
    {ok : System p.fsm π × Licences → Action π → Prop} {cpu : NodeId → π.State}
    {x : System p.fsm π × Licences}
    (run : ((System.machine p.fsm π s).recording System.licences).Run ok
      (System.initial p.fsm π s cpu, fun _ _ => .none) x) (i : NodeId) (b : BlockId) :
    x.2 i b = p.licence ((x.1.cpus i).agents b) := by
  apply run.invariant (I := fun x => x.2 i b = p.licence ((x.1.cpus i).agents b))
  · exact (licence_initial p).symm
  · intro x a x' here _ step
    obtain ⟨step, noted⟩ := Machine.recording_step step
    have moved := System.node_step step i
    rw [noted]
    cases a with
    | tick j =>
        simp only [System.machine, System.step] at step
        split at step
        · split at step
          · cases step
          · next n st ticked =>
              have cpus : x'.1.cpus = Function.update x.1.cpus j n := by
                rw [← Except.ok.inj step]
              by_cases own : i = j
              · subst own
                simp only [System.licences, cpus, Function.update_self, here]
                exact (tick_licence laws ticked b).symm
              · simp only [System.licences, cpus, Function.update_of_ne own, here]
        · cases step
    | tock j | deliver j | external j event | dirTick | dirTock | dirDeliver j =>
        have kept : (x'.1.cpus i).agents = (x.1.cpus i).agents := by
          generalize x'.1.cpus i = n at moved
          cases moved <;> rfl
        simp only [System.licences, here, kept]

end

end Coherence
