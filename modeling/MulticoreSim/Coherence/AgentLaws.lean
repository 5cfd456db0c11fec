import MulticoreSim.Coherence.Abstraction
import MulticoreSim.Library.DirectoryProtocol.Profile

/-! # The agents as nodes of a directory protocol

Each agent state is read as rights and a want; an agent's answers are then the
events of a node, and it has an answer wherever a node has one.
-/

namespace Coherence

open DirectoryProtocol

/-- An agent state read as rights and a want. -/
structure View where
  right : Right
  want : Want
  deriving DecidableEq, Repr

/-- What an agent may do with a processor request. -/
def ProcSpec (P : Profile) (v : View) (toDir : Option MessageKind) (toProc : Bool) (v' : View) : Prop :=
  v.want = .nothing ∧
    (toDir = none ∧ toProc = true ∧ v' = v ∧ v.right ≠ .none ∨
      ∃ r, toDir = some (requestKind r) ∧ toProc = false ∧ v' = ⟨v.right, r.want⟩ ∧ P.Request r ∧
        (r = .read → v.right = .none) ∧ (r = .upgrade → v.right = .exclusive))

/-- What an agent may do with a message from the directory. -/
def NtwkSpec (P : Profile) (v : View) (k : MessageKind) (toDir : Option MessageKind) (toProc : Bool)
    (v' : View) : Prop :=
  (∃ g, k = grantKind g ∧ v.want ≠ .nothing ∧ toDir = none ∧ toProc = true ∧
      v' = ⟨g.right v.want, .nothing⟩) ∨
    toProc = false ∧
      (k = .reqInvalid ∧ v.right = .shared ∧ toDir = some .invack ∧ v' = ⟨.none, v.want⟩ ∨
        k = .recallGotoI ∧ (v.right = .owned ∨ v.right = .exclusive) ∧ toDir = some .data ∧
          v' = ⟨.none, v.want⟩ ∨
        k = .recallGotoS ∧ P.owners = false ∧ v.right = .exclusive ∧ toDir = some .data ∧
          v' = ⟨.shared, v.want⟩ ∨
        k = .recallGotoS ∧ P.owners = true ∧ (v.right = .owned ∨ v.right = .exclusive) ∧
          toDir = some .data ∧ v' = ⟨.owned, v.want⟩)

/-- When an agent must have an answer for a message from the directory. -/
def Answerable (P : Profile) (v : View) (k : MessageKind) : Prop :=
  (∃ g, k = grantKind g ∧ P.Grant g ∧
      (v.want = .read ∧ v.right = .none ∧ g ≠ .ack ∨
        v.want = .write ∧ g ≠ .cleanExclusive ∧ (g = .ack ↔ v.right ≠ .none))) ∨
    k = .reqInvalid ∧ P.reads = true ∧ v.right = .shared ∨
    k = .recallGotoI ∧ (v.right = .owned ∨ v.right = .exclusive) ∨
    k = .recallGotoS ∧ P.reads = true ∧
      (v.right = .exclusive ∨ P.owners = true ∧ v.right = .owned)

/-- A protocol's agents seen as nodes of a directory protocol. -/
structure AgentLaws (F : ProtocolFsm) where
  profile : Profile
  view : F.AgentState → View
  view_initial : view F.initial = ⟨.none, .nothing⟩
  proc : ∀ a k t, F.processProcRequest a k = .ok t →
    ProcSpec profile (view a) t.toDir t.toProc (view t.state)
  ntwk : ∀ a k t, F.processNtwkRequest a k = .ok t →
    NtwkSpec profile (view a) k t.toDir t.toProc (view t.state)
  answersProc : ∀ a k, (view a).want = .nothing → k = .load ∨ k = .store →
    ∃ t, F.processProcRequest a k = .ok t
  answersNtwk : ∀ a k, Answerable profile (view a) k → ∃ t, F.processNtwkRequest a k = .ok t

def MiState.view : MiState → View
  | .I => ⟨.none, .nothing⟩
  | .M => ⟨.exclusive, .nothing⟩
  | .IM => ⟨.none, .write⟩

def MsiState.view : MsiState → View
  | .I => ⟨.none, .nothing⟩
  | .S => ⟨.shared, .nothing⟩
  | .M => ⟨.exclusive, .nothing⟩
  | .IS => ⟨.none, .read⟩
  | .IM => ⟨.none, .write⟩
  | .SM => ⟨.shared, .write⟩

def MesiState.view : MesiState → View
  | .I => ⟨.none, .nothing⟩
  | .S => ⟨.shared, .nothing⟩
  | .E | .M => ⟨.exclusive, .nothing⟩
  | .IS => ⟨.none, .read⟩
  | .IM => ⟨.none, .write⟩
  | .SM => ⟨.shared, .write⟩
  | .EM => ⟨.exclusive, .write⟩

def MosiState.view : MosiState → View
  | .I => ⟨.none, .nothing⟩
  | .S => ⟨.shared, .nothing⟩
  | .M => ⟨.exclusive, .nothing⟩
  | .O => ⟨.owned, .nothing⟩
  | .IS => ⟨.none, .read⟩
  | .IM => ⟨.none, .write⟩
  | .SM => ⟨.shared, .write⟩
  | .OM => ⟨.owned, .write⟩

def MoesifState.view : MoesifState → View
  | .I => ⟨.none, .nothing⟩
  | .S => ⟨.shared, .nothing⟩
  | .E | .M => ⟨.exclusive, .nothing⟩
  | .F | .O => ⟨.owned, .nothing⟩
  | .IS => ⟨.none, .read⟩
  | .IM => ⟨.none, .write⟩
  | .SM => ⟨.shared, .write⟩
  | .EM => ⟨.exclusive, .write⟩
  | .FM | .OM => ⟨.owned, .write⟩

def miProfile : Profile := ⟨false, false, false, by simp, by simp⟩
def msiProfile : Profile := ⟨true, false, false, by simp, by simp⟩
def mesiProfile : Profile := ⟨true, true, false, by simp, by simp⟩
def mosiProfile : Profile := ⟨true, false, true, by simp, by simp⟩
def moesifProfile : Profile := ⟨true, true, true, by simp, by simp⟩

theorem exists_request {p : Request → Prop} :
    (∃ r, p r) ↔ p .read ∨ p .write ∨ p .upgrade := by
  constructor
  · rintro ⟨r, h⟩
    cases r <;> simp [h]
  · rintro (h | h | h) <;> exact ⟨_, h⟩

theorem exists_grant {p : Grant → Prop} :
    (∃ g, p g) ↔ p .data ∨ p .cleanExclusive ∨ p .ack := by
  constructor
  · rintro ⟨g, h⟩
    cases g <;> simp [h]
  · rintro (h | h | h) <;> exact ⟨_, h⟩

def miLaws : AgentLaws mi where
  profile := miProfile
  view := MiState.view
  view_initial := rfl
  proc a k t step := by
    cases a <;> cases k <;> cases step <;>
      simp [ProcSpec, MiState.view, exists_request, requestKind, Request.want, Profile.Request, miProfile]
  ntwk a k t step := by
    cases a <;> cases k <;> cases step <;>
      simp [NtwkSpec, MiState.view, exists_grant, grantKind, Grant.right, answerRecall, acceptGrant, miProfile]
  answersProc a k rest kind := by
    cases a <;> rcases kind with rfl | rfl <;> first | exact ⟨_, rfl⟩ | simp [MiState.view] at rest
  answersNtwk a k answerable := by
    cases a <;> cases k <;>
      first
      | exact ⟨_, rfl⟩
      | simp [Answerable, MiState.view, exists_grant, grantKind, miProfile, Profile.Grant] at answerable

def msiLaws : AgentLaws msi where
  profile := msiProfile
  view := MsiState.view
  view_initial := rfl
  proc a k t step := by
    cases a <;> cases k <;> cases step <;>
      simp [ProcSpec, MsiState.view, exists_request, requestKind, Request.want, Profile.Request, msiProfile]
  ntwk a k t step := by
    cases a <;> cases k <;> cases step <;>
      simp [NtwkSpec, MsiState.view, exists_grant, grantKind, Grant.right, answerInvalid, answerRecall, acceptGrant, msiProfile]
  answersProc a k rest kind := by
    cases a <;> rcases kind with rfl | rfl <;> first | exact ⟨_, rfl⟩ | simp [MsiState.view] at rest
  answersNtwk a k answerable := by
    cases a <;> cases k <;>
      first
      | exact ⟨_, rfl⟩
      | simp [Answerable, MsiState.view, exists_grant, grantKind, msiProfile, Profile.Grant] at answerable

def mesiLaws : AgentLaws mesi where
  profile := mesiProfile
  view := MesiState.view
  view_initial := rfl
  proc a k t step := by
    cases a <;> cases k <;> cases step <;>
      simp [ProcSpec, MesiState.view, exists_request, requestKind, Request.want, Profile.Request, mesiProfile]
  ntwk a k t step := by
    cases a <;> cases k <;> cases step <;>
      simp [NtwkSpec, MesiState.view, exists_grant, grantKind, Grant.right, answerInvalid, answerRecall, acceptGrant, mesiProfile]
  answersProc a k rest kind := by
    cases a <;> rcases kind with rfl | rfl <;> first | exact ⟨_, rfl⟩ | simp [MesiState.view] at rest
  answersNtwk a k answerable := by
    cases a <;> cases k <;>
      first
      | exact ⟨_, rfl⟩
      | simp [Answerable, MesiState.view, exists_grant, grantKind, mesiProfile, Profile.Grant] at answerable

def mosiLaws : AgentLaws mosi where
  profile := mosiProfile
  view := MosiState.view
  view_initial := rfl
  proc a k t step := by
    cases a <;> cases k <;> cases step <;>
      simp [ProcSpec, MosiState.view, exists_request, requestKind, Request.want, Profile.Request, mosiProfile]
  ntwk a k t step := by
    cases a <;> cases k <;> cases step <;>
      simp [NtwkSpec, MosiState.view, exists_grant, grantKind, Grant.right, answerInvalid, answerRecall, acceptGrant, mosiProfile]
  answersProc a k rest kind := by
    cases a <;> rcases kind with rfl | rfl <;> first | exact ⟨_, rfl⟩ | simp [MosiState.view] at rest
  answersNtwk a k answerable := by
    cases a <;> cases k <;>
      first
      | exact ⟨_, rfl⟩
      | simp [Answerable, MosiState.view, exists_grant, grantKind, mosiProfile, Profile.Grant] at answerable

def moesifLaws : AgentLaws moesif where
  profile := moesifProfile
  view := MoesifState.view
  view_initial := rfl
  proc a k t step := by
    cases a <;> cases k <;> cases step <;>
      simp [ProcSpec, MoesifState.view, exists_request, requestKind, Request.want, Profile.Request, moesifProfile]
  ntwk a k t step := by
    cases a <;> cases k <;> cases step <;>
      simp [NtwkSpec, MoesifState.view, exists_grant, grantKind, Grant.right, answerInvalid, answerRecall, acceptGrant, moesifProfile]
  answersProc a k rest kind := by
    cases a <;> rcases kind with rfl | rfl <;> first | exact ⟨_, rfl⟩ | simp [MoesifState.view] at rest
  answersNtwk a k answerable := by
    cases a <;> cases k <;>
      first
      | exact ⟨_, rfl⟩
      | simp [Answerable, MoesifState.view, exists_grant, grantKind, moesifProfile, Profile.Grant] at answerable

end Coherence
