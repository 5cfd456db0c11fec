import MulticoreSim.Coherence.DirectoryBranches

/-! # The five directories as directory protocols

Every answered message is what enabled events of its line do; and on a line
without evictions every message is answered.
-/

namespace Coherence

open DirectoryProtocol Outcome

/-- (E, GETX) from a CPU the entry does not know. -/
def Wild (e : DirEntry) (r : Message) : Prop :=
  e.state = .E ∧ r.kind = .getx ∧ e.presence r.src = false

instance (e : DirEntry) (r : Message) : Decidable (Wild e r) := by
  unfold Wild
  infer_instance

/-- (S, GETM) and (S, GETX) of MESI with nobody to invalidate. -/
def mesiStarved (s : Settings) (e : DirEntry) (r : Message) : Prop :=
  e.state = .S ∧ (r.kind = .getm ∨ r.kind = .getx) ∧
    e.presentExcept s.numProcs (fun i => i ≠ r.src) = []

/-- (O, GETX) of MOESIF with nobody to invalidate, and (F, GETX) with nobody to
    invalidate or the owner among the invalidated. -/
def moesifStarved (s : Settings) (e : DirEntry) (r : Message) : Prop :=
  r.kind = .getx ∧
    (e.state = .O ∧ e.presentExcept s.numProcs (fun i => i ≠ r.src && i ≠ e.oFId) = [] ∨
      e.state = .F ∧ (r.src ≠ e.oFId ∨ e.presentExcept s.numProcs (fun i => i ≠ r.src) = []))

section

variable {s : Settings} {b : BlockId} {e : DirEntry} {B : Block NodeId} {r : Message} {o : Outcome}
  {starved wild : Prop}

theorem mi_refines (m : Meets miProfile False s.numProcs b e B r) (step : miHandle s e r = .ok o) :
    ∃ B', Refines miProfile False s.numProcs b starved wild B r o B' := by
  unfold miHandle at step
  split at step <;> cases step
  case h_1 state kind => exact m.memoryGrant_M state (q := .write) kind nofun
  case h_2 state kind =>
    obtain ⟨h, mode⟩ := m.named state
    exact m.recall_write mode (q := .write) kind nofun (.inl rfl)
  case h_3 state kind =>
    obtain ⟨h, i, mode⟩ := m.named state
    exact m.transfer kind mode
  all_goals exact m.cycle

/-- (SM, INVACK) of MSI goes by the mark its round began with. -/
theorem msi_invack (m : Meets msiProfile True s.numProcs b e B r) (state : e.state = .SM)
    (kind : r.kind = .invack) (step : msiInvack e r = .ok o) :
    ∃ B', Refines msiProfile True s.numProcs b starved wild B r o B' := by
  obtain ⟨i, mode⟩ := m.named state
  have collecting : B.Collecting := .inl ⟨i, mode⟩
  have marked := m.entry.upgrade trivial i mode
  obtain ⟨rfl, bound⟩ := m.entry.requester i (by simp [mode, Mode.requester])
  have dropped := m.entry.members.drop m.small (Finset.mem_filter.mp (m.owes kind)).1
  unfold msiInvack at step
  simp only at step
  split at step
  · next zero =>
      have last : e.invAckWaiting = 1 := by omega
      split at step
      · next mark =>
          cases step
          exact m.collected_serve kind mode last (marked.mp mark) rfl m.entry.blockId dropped
            m.entry.blockId
      · next mark =>
          cases step
          have fresh := mt marked.mpr mark
          exact m.collected_fetch kind mode last fresh rfl m.entry.blockId
            (dropped.add m.small bound (mt Finset.mem_of_mem_erase fresh)) m.entry.blockId
  · next more =>
      cases step
      have more' : e.invAckWaiting ≠ 1 := by omega
      exact m.collectOn kind collecting (v := .collect _ r.src) rfl
        ⟨m.quiet, mode, m.answered .ack kind⟩ (.silent trivial rfl rfl (by simp)) more'
        (fun _ mode => m.collector kind mode) rfl m.entry.blockId dropped rfl rfl rfl rfl

theorem msi_refines (m : Meets msiProfile True s.numProcs b e B r) (step : msiHandle s e r = .ok o) :
    ∃ B', Refines msiProfile True s.numProcs b starved wild B r o B' := by
  unfold msiHandle at step
  split at step
  case h_1 state kind =>
    cases step
    exact m.grantExclusive state (q := .write) kind nofun (by simp) (by simp [m.block])
      (by apply Members.ensure_first _ m.small m.src; exact m.no_members (m.named state))
  case h_2 state kind =>
    cases step
    exact m.grantShared state kind rfl rfl (by simp) (by simp [m.block])
      (by apply Members.ensure_first _ m.small m.src; exact m.no_members (m.named state))
  case h_3 state kind =>
    obtain ⟨h, mode⟩ := m.named state
    cases step
    rw [(m.holder mode).1.firstPresent m.small]
    exact m.takeover mode (q := .write) kind nofun (.inl rfl) m.entry.blockId m.entry.members rfl
  case h_4 state kind =>
    obtain ⟨h, mode⟩ := m.named state
    cases step
    rw [(m.holder mode).1.firstPresent m.small]
    exact m.downgrade mode kind rfl rfl (.inl rfl) m.entry.blockId m.entry.members rfl
  case h_5 state kind =>
    obtain ⟨h, i, mode⟩ := m.named state
    obtain ⟨rfl, -⟩ := m.entry.requester i (by simp [mode, Mode.requester])
    cases step
    rw [(m.takeover_holder mode).firstPresent m.small]
    exact m.takenOver kind mode rfl m.entry.blockId (m.handed_over mode)
  case h_6 state kind =>
    obtain ⟨h, i, mode⟩ := m.named state
    obtain ⟨rfl, -⟩ := m.entry.requester i (by simp [mode, Mode.requester])
    cases step
    exact m.downgraded kind mode rfl m.entry.blockId
      fun fresh bound => m.entry.members.add m.small bound fresh
  case h_7 state kind =>
    simp only at step
    split at step
    · next zero =>
        have none := List.length_eq_zero_iff.mp zero
        cases step
        exact m.upgrade state (q := .write) kind nofun (m.alone_of_none m.small none) rfl
          m.entry.blockId (fun single => single ▸ m.entry.members) m.entry.blockId
    · next more =>
        cases step
        exact m.invalidate state (q := .write) kind nofun m.small m.entry.blockId rfl m.entry.blockId
          m.entry.members rfl rfl (fun _ => rfl) fun _ none => more (List.length_eq_zero_iff.mpr none)
  case h_8 state kind =>
    cases step
    exact m.join state kind (by simp) (by simp [m.entry.blockId])
      (by apply Members.ensure _ m.small m.src; exact m.entry.members)
  case h_9 state kind =>
    exact msi_invack m state kind step
  all_goals
    cases step
    try exact m.cycle

theorem mesi_refines (m : Meets mesiProfile False s.numProcs b e B r)
    (step : mesiHandle s e r = .ok o) :
    ∃ B', Refines mesiProfile False s.numProcs b (mesiStarved s e r) (Wild e r) B r o B' := by
  unfold mesiHandle at step
  split at step
  case h_1 state kind =>
    cases step
    exact m.memoryGrant_M state (q := .write) kind nofun
  case h_2 state kind =>
    cases step
    exact m.memoryGrant_M state (q := .upgrade) kind nofun
  case h_3 state kind =>
    cases step
    exact m.memoryGrantE state kind rfl
  case h_4 state kind =>
    obtain ⟨h, mode⟩ := m.named state
    cases step
    exact m.recall_write mode (q := .write) kind nofun (.inl rfl)
  case h_5 state kind =>
    obtain ⟨h, mode⟩ := m.named state
    cases step
    exact m.recall_write mode (q := .upgrade) kind nofun (.inl rfl)
  case h_6 state kind =>
    obtain ⟨h, mode⟩ := m.named state
    cases step
    exact m.recall_read mode kind rfl rfl (.inl rfl)
  case h_7 state kind =>
    obtain ⟨h, i, mode⟩ := m.named state
    cases step
    exact m.transfer kind mode
  case h_8 state kind =>
    obtain ⟨h, i, mode⟩ := m.named state
    cases step
    exact m.shareData_S kind mode
  case h_9 state kind =>
    obtain ⟨h, mode⟩ := m.named state
    cases step
    exact m.recall_write mode (q := .write) kind nofun (.inr ⟨rfl, rfl⟩)
  case h_10 state kind =>
    obtain ⟨h, mode⟩ := m.named state
    cases step
    exact m.recall_read mode kind rfl rfl (.inr ⟨rfl, rfl⟩)
  case h_11 state kind =>
    cases step
    exact m.silentUpgrade state kind (by simp [Wild, state, kind])
  case h_12 state kind =>
    obtain ⟨h, i, mode⟩ := m.named state
    cases step
    exact m.shareData_S kind mode
  case h_13 state kind =>
    obtain ⟨h, i, mode⟩ := m.named state
    cases step
    exact m.transfer kind mode
  case h_14 state kind =>
    cases step
    refine m.invalidate state (q := .write) kind nofun le_rfl m.block rfl m.entry.blockId
      m.entry.members rfl rfl nofun ?_
    exact fun fed none => fed ⟨state, by simp [kind], none⟩
  case h_15 state kind =>
    cases step
    refine m.invalidate state (q := .upgrade) kind nofun le_rfl m.block rfl m.entry.blockId
      m.entry.members rfl rfl nofun ?_
    exact fun fed none => fed ⟨state, by simp [kind], none⟩
  case h_16 state kind =>
    cases step
    exact m.memoryGrant_S state kind
  case h_17 state kind =>
    exact m.invackSM state kind step
  all_goals
    cases step
    try exact m.cycle

theorem mosi_refines (m : Meets mosiProfile False s.numProcs b e B r)
    (step : mosiHandle s e r = .ok o) :
    ∃ B', Refines mosiProfile False s.numProcs b starved wild B r o B' := by
  unfold mosiHandle at step
  split at step
  case h_1 state kind =>
    cases step
    exact m.memoryGrant_M state (q := .write) kind nofun
  case h_2 state kind =>
    cases step
    exact m.grantShared state kind rfl rfl rfl m.entry.blockId
      (m.singleton_of_add (m.no_members (m.named state)) m.src)
  case h_3 state kind =>
    obtain ⟨h, mode⟩ := m.named state
    cases step
    exact m.recall_write mode (q := .write) kind nofun (.inl rfl)
  case h_4 state kind =>
    obtain ⟨h, mode⟩ := m.named state
    cases step
    exact m.recallToOwner mode kind rfl rfl
  case h_5 state kind =>
    obtain ⟨h, i, mode⟩ := m.named state
    cases step
    exact m.forwarded kind mode rfl
  case h_6 state kind =>
    obtain ⟨h, i, mode⟩ := m.named state
    cases step
    exact m.transfer kind mode
  case h_7 state kind =>
    simp only at step
    split at step
    · next zero =>
        have none := List.length_eq_zero_iff.mp zero
        cases step
        exact m.upgrade state (q := .write) kind nofun (m.alone_of_none le_rfl none) rfl
          m.entry.blockId (fun single => single ▸ m.entry.members) m.block
    · next more =>
        cases step
        exact m.invalidate state (q := .write) kind nofun le_rfl m.block rfl m.entry.blockId
          m.entry.members rfl rfl nofun fun _ none => more (List.length_eq_zero_iff.mpr none)
  case h_8 state kind =>
    cases step
    exact m.memoryGrant_S state kind
  case h_9 state kind =>
    exact m.invackSM state kind step
  case h_10 state kind =>
    obtain ⟨h, mode⟩ := m.named state
    cases step
    exact m.reclaim mode (q := .write) kind nofun rfl
  case h_11 state kind =>
    obtain ⟨h, mode⟩ := m.named state
    exact m.askOwner mode kind rfl rfl step
  case h_12 state kind =>
    obtain ⟨h, i, recalled, mode⟩ := m.named state
    exact m.invackOwned kind mode step
  case h_13 state kind =>
    obtain ⟨h, i, recalled, mode⟩ := m.named state
    cases step
    exact m.dataOwned kind mode _
  case h_14 state kind =>
    obtain ⟨h, i, mode⟩ := m.named state
    cases step
    exact m.forwarded kind mode rfl
  all_goals
    cases step
    try exact m.cycle

theorem moesif_refines (m : Meets moesifProfile False s.numProcs b e B r)
    (step : moesifHandle s e r = .ok o) :
    ∃ B', Refines moesifProfile False s.numProcs b (moesifStarved s e r) (Wild e r) B r o B' := by
  unfold moesifHandle at step
  split at step
  case h_1 state kind =>
    cases step
    exact m.memoryGrant_M state (q := .write) kind (by simp)
  case h_2 state kind =>
    cases step
    exact m.memoryGrant_M state (q := .upgrade) kind (by simp)
  case h_3 state kind =>
    cases step
    exact m.memoryGrantE state kind rfl
  case h_4 state kind =>
    cases step
    exact m.join state kind (by simp [state]) (by simp [m.entry.blockId])
      (m.entry.members.ensure m.small m.src)
  case h_5 state kind =>
    simp only at step
    split at step
    · next zero =>
        have none := List.length_eq_zero_iff.mp zero
        cases step
        exact m.upgrade state (q := .write) kind (by simp) (m.alone_of_none le_rfl none) rfl
          (by simp [Outcome.invalidate, m.entry.blockId])
          (fun single => by apply Members.ensure_mem _ m.small (by simp); exact single ▸ m.entry.members)
          m.block
    · next more =>
        cases step
        exact m.invalidate state (q := .write) kind (by simp) le_rfl m.block rfl m.entry.blockId
          m.entry.members rfl rfl (by simp) fun _ none => more (List.length_eq_zero_iff.mpr none)
  case h_6 state kind =>
    simp only at step
    split at step
    · next zero =>
        have none := List.length_eq_zero_iff.mp zero
        cases step
        exact m.upgrade state (q := .upgrade) kind (by simp) (m.alone_of_none le_rfl none) rfl
          (by simp [Outcome.invalidate, m.entry.blockId])
          (fun single => by apply Members.ensure_mem _ m.small (by simp); exact single ▸ m.entry.members)
          m.block
    · next more =>
        cases step
        exact m.invalidate state (q := .upgrade) kind (by simp) le_rfl m.block rfl m.entry.blockId
          m.entry.members rfl rfl (by simp) fun _ none => more (List.length_eq_zero_iff.mpr none)
  case h_7 state kind =>
    cases result : Outcome.invackSM e r "MOESIF dir: too many INVACKs (SM)" with
    | error what => simp [result, Except.map] at step
    | ok o' =>
        simp only [result, Except.map] at step
        cases step
        obtain ⟨B', refines⟩ := m.invackSM state kind result
        exact ⟨B', refines.dirty _⟩
  case h_8 state kind =>
    obtain ⟨h, mode⟩ := m.named state
    cases step
    exact m.recall_write mode (q := .write) kind (by simp) (.inl rfl)
  case h_9 state kind =>
    obtain ⟨h, mode⟩ := m.named state
    cases step
    exact m.recall_write mode (q := .upgrade) kind (by simp) (.inl rfl)
  case h_10 state kind =>
    obtain ⟨h, mode⟩ := m.named state
    cases step
    exact m.recallToOwner mode kind rfl rfl
  case h_11 state kind =>
    obtain ⟨h, i, mode⟩ := m.named state
    cases step
    exact m.transfer kind mode
  case h_12 state kind =>
    obtain ⟨h, i, mode⟩ := m.named state
    cases step
    exact m.forwarded kind mode rfl
  case h_13 state kind =>
    obtain ⟨h, mode⟩ := m.named state
    cases step
    exact m.recall_write mode (q := .write) kind (by simp) (.inr ⟨rfl, rfl⟩)
  case h_14 state kind =>
    obtain ⟨h, mode⟩ := m.named state
    cases step
    exact m.recallToOwner mode kind rfl rfl
  case h_15 state kind =>
    cases step
    exact m.silentUpgrade state kind (by simp [Wild, state, kind])
  case h_16 state kind =>
    obtain ⟨h, i, mode⟩ := m.named state
    cases step
    exact m.forwarded kind mode rfl
  case h_17 state kind =>
    obtain ⟨h, i, mode⟩ := m.named state
    cases step
    exact m.transfer kind mode
  case h_18 state kind =>
    obtain ⟨h, mode⟩ := m.named state
    cases step
    exact m.reclaim mode (q := .write) kind (by simp) rfl
  case h_19 state kind =>
    obtain ⟨h, mode⟩ := m.named state
    exact m.askOwner mode kind rfl rfl step
  case h_20 state kind =>
    obtain ⟨h, mode⟩ := m.named state
    cases step
    have owner := m.entry.owner h (by simp [mode, Mode.owner])
    refine m.reclaimAmong true mode (q := .upgrade) kind (by simp) (fun _ => ⟨rfl, rfl⟩) (fun _ => ?_)
      (Members.nodup_presentExcept ..) ?_ rfl m.entry.blockId m.entry.members rfl owner rfl ?_
    · by_cases own : r.src = h
      · exact .inl own
      · exact .inr ⟨kind, .inr ⟨state, .inl (owner ▸ own)⟩⟩
    · intro j
      rw [m.entry.members.mem_presentExcept le_rfl]
      simp [and_comm]
    · exact fun fed none => fed ⟨kind, .inr ⟨state, .inr none⟩⟩
  case h_21 state kind =>
    obtain ⟨h, i, mode⟩ := m.named state
    cases step
    exact m.forwarded kind mode rfl
  case h_22 state kind =>
    obtain ⟨h, i, recalled, mode⟩ := m.named state
    exact m.invackOwned kind mode step
  case h_23 state kind =>
    obtain ⟨h, i, recalled, mode⟩ := m.named state
    cases step
    exact m.dataOwned kind mode _
  case h_24 state kind =>
    obtain ⟨h, mode⟩ := m.named state
    cases step
    exact m.reclaim mode (q := .write) kind (by simp) rfl
  case h_25 state kind =>
    obtain ⟨h, mode⟩ := m.named state
    exact m.askOwner mode kind rfl rfl step
  case h_26 state kind =>
    obtain ⟨h, mode⟩ := m.named state
    cases step
    have owner := m.entry.owner h (by simp [mode, Mode.owner])
    refine m.reclaimAmong false mode (q := .upgrade) kind (by simp) (by simp) (by simp)
      (Members.nodup_presentExcept ..) ?_ rfl m.entry.blockId m.entry.members rfl owner rfl ?_
    · intro j
      rw [m.entry.members.mem_presentExcept le_rfl, ← owner]
      simp
      tauto
    · exact fun fed none => fed ⟨kind, .inl ⟨state, none⟩⟩
  case h_27 state kind =>
    obtain ⟨h, i, recalled, mode⟩ := m.named state
    exact m.invackOwned kind mode step
  case h_28 state kind =>
    obtain ⟨h, i, recalled, mode⟩ := m.named state
    cases step
    exact m.dataOwned kind mode _
  case h_29 state kind =>
    obtain ⟨h, i, mode⟩ := m.named state
    cases step
    exact m.forwarded kind mode rfl
  all_goals
    cases step
    try exact m.cycle

/-! ## Every message is answered -/

/-- What may be at the head of the queue. -/
theorem Meets.cases {P : Profile} {marks : Prop} {n : Nat} (m : Meets P marks n b e B r)
    (notice : r.kind ≠ .dataWb) :
    (∃ q, r.kind = requestKind q ∧ P.Request q) ∨
      r.kind = .invack ∧ 1 ≤ e.invAckWaiting ∧
        ((∃ i, B.mode = .invalidate i) ∨ ∃ o i c, B.mode = .reclaim o i c false) ∨
      r.kind = .data ∧
        ((∃ h i, B.mode = .takeover h i) ∨ (∃ h i, B.mode = .downgrade h i) ∨
          (∃ o i c, B.mode = .forward o i c) ∨ ∃ o i c, B.mode = .reclaim o i c true) := by
  rcases source_of_up m.here with ⟨q, asked, kind⟩ | ⟨reply, answered, kind⟩ | ⟨-, kind⟩
  · exact .inl ⟨q, kind, (m.within.slot r.src).asked q asked⟩
  · cases reply with
    | ack =>
        refine .inr (.inl ⟨kind, ?_⟩)
        rcases (m.inv.answered_ack answered).2 with ⟨i, mode, -⟩ | ⟨o, i, c, mode, -⟩
        · exact ⟨(m.awaited kind (.inl ⟨i, mode⟩)).2, .inl ⟨i, mode⟩⟩
        · exact ⟨(m.awaited kind (.inr ⟨o, i, c, mode⟩)).2, .inr ⟨o, i, c, mode⟩⟩
    | data =>
        refine .inr (.inr ⟨kind, ?_⟩)
        rcases m.inv.answered_data answered with
          ⟨i, mode⟩ | ⟨i, mode⟩ | ⟨i, c, mode⟩ | ⟨i, c, mode⟩
        · exact .inl ⟨_, i, mode⟩
        · exact .inr (.inl ⟨_, i, mode⟩)
        · exact .inr (.inr (.inl ⟨_, i, c, mode⟩))
        · exact .inr (.inr (.inr ⟨_, i, c, mode⟩))
  · exact absurd kind notice

theorem invackSM_answers {tooMany : String} (pos : 1 ≤ e.invAckWaiting) :
    ∃ o, invackSM e r tooMany = .ok o := by
  unfold invackSM
  rw [if_pos pos]
  simp only
  split
  · split <;> exact ⟨_, rfl⟩
  · exact ⟨_, rfl⟩

theorem invackOwned_answers {tooMany : String} (pos : 1 ≤ e.invAckWaiting) :
    ∃ o, invackOwned e r tooMany = .ok o := by
  unfold invackOwned
  rw [if_pos pos]
  simp only
  split
  · split <;> exact ⟨_, rfl⟩
  · exact ⟨_, rfl⟩

/-- An owner has no reason to ask for reading. -/
theorem askOwner_answers {P : Profile} {marks : Prop} {n : Nat} (m : Meets P marks n b e B r)
    (kind : r.kind = .gets) {o : NodeId} {c : Bool} (mode : B.mode = .owned o c) {keep : Bool}
    {next : DirState} {fromOwner : String} : ∃ o, askOwner e r keep next fromOwner = .ok o := by
  have owner := m.entry.owner o (by simp [mode, Mode.owner])
  have rights := m.inv.rights
  simp only [Block.ModeOk, mode] at rights
  have other : e.oFId ≠ r.src := by
    intro eq
    have none := m.reader_none (m.asked (q := .read) kind)
    rw [← eq, owner, rights.2.1.2] at none
    cases none
  exact ⟨_, if_neg other⟩

theorem mi_answers (m : Meets miProfile False s.numProcs b e B r) (notice : r.kind ≠ .dataWb) :
    ∃ o, miHandle s e r = .ok o := by
  have stands := m.entry.stands
  have within := m.within.mode
  have states : e.state = .I ∨ e.state = .M ∨ e.state = .MM := by
    cases mode : B.mode <;> simp_all [Stands, Profile.Mode, miProfile]
  rcases m.cases notice with ⟨q, kind, request⟩ | ⟨kind, pos, mode | mode⟩ | ⟨kind, mode⟩
  · cases q with
    | write =>
        rcases states with state | state | state <;>
          exact ⟨_, by rw [miHandle, state, kind]; rfl⟩
    | read | upgrade => cases request
  · obtain ⟨i, mode⟩ := mode
    simp [mode, Profile.Mode, miProfile] at within
  · obtain ⟨o, i, c, mode⟩ := mode
    simp [mode, Profile.Mode, miProfile] at within
  · rcases mode with ⟨h, i, mode⟩ | ⟨h, i, mode⟩ | ⟨o, i, c, mode⟩ | ⟨o, i, c, mode⟩ <;>
      simp [mode, Profile.Mode, miProfile, Stands] at within stands
    exact ⟨_, by rw [miHandle, stands, kind]⟩

theorem msi_answers (m : Meets msiProfile True s.numProcs b e B r) (notice : r.kind ≠ .dataWb) :
    ∃ o, msiHandle s e r = .ok o := by
  have stands := m.entry.stands
  have within := m.within.mode
  have states : e.state = .I ∨ e.state = .S ∨ e.state = .M ∨ e.state = .MM ∨ e.state = .MS ∨
      e.state = .SM := by
    cases mode : B.mode <;> simp_all [Stands, Profile.Mode, msiProfile]
  rcases m.cases notice with ⟨q, kind, request⟩ | ⟨kind, pos, mode | mode⟩ | ⟨kind, mode⟩
  · cases q with
    | read | write =>
        rcases states with state | state | state | state | state | state <;>
          (rw [msiHandle, state, kind]; simp only [requestKind]) <;>
          first
          | exact ⟨_, rfl⟩
          | split <;> exact ⟨_, rfl⟩
    | upgrade => cases request
  · obtain ⟨i, mode⟩ := mode
    simp [mode, Stands] at stands
    rw [msiHandle, stands, kind]
    simp only [msiInvack]
    split
    · split <;> exact ⟨_, rfl⟩
    · exact ⟨_, rfl⟩
  · obtain ⟨o, i, c, mode⟩ := mode
    simp [mode, Profile.Mode, msiProfile] at within
  · rcases mode with ⟨h, i, mode⟩ | ⟨h, i, mode⟩ | ⟨o, i, c, mode⟩ | ⟨o, i, c, mode⟩ <;>
      simp [mode, Profile.Mode, msiProfile, Stands] at within stands <;>
      exact ⟨_, by rw [msiHandle, stands, kind]⟩

theorem mesi_answers (m : Meets mesiProfile False s.numProcs b e B r) (notice : r.kind ≠ .dataWb) :
    ∃ o, mesiHandle s e r = .ok o := by
  have stands := m.entry.stands
  have within := m.within.mode
  have states : e.state = .I ∨ e.state = .S ∨ e.state = .M ∨ e.state = .E ∨ e.state = .MM ∨
      e.state = .EM ∨ e.state = .MS ∨ e.state = .ES ∨ e.state = .SM := by
    cases mode : B.mode <;> simp_all [Stands, Profile.Mode, mesiProfile] <;> grind
  rcases m.cases notice with ⟨q, kind, request⟩ | ⟨kind, pos, mode | mode⟩ | ⟨kind, mode⟩
  · rcases states with state | state | state | state | state | state | state | state | state <;>
      cases q <;> exact ⟨_, by rw [mesiHandle, state, kind]; rfl⟩
  · obtain ⟨i, mode⟩ := mode
    simp [mode, Stands] at stands
    rw [mesiHandle, stands, kind]
    exact invackSM_answers pos
  · obtain ⟨o, i, c, mode⟩ := mode
    simp [mode, Profile.Mode, mesiProfile] at within
  · rcases mode with ⟨h, i, mode⟩ | ⟨h, i, mode⟩ | ⟨o, i, c, mode⟩ | ⟨o, i, c, mode⟩ <;>
      simp [mode, Profile.Mode, mesiProfile, Stands] at within stands <;>
      rcases stands with state | state <;>
      exact ⟨_, by rw [mesiHandle, state, kind]⟩

theorem mosi_answers (m : Meets mosiProfile False s.numProcs b e B r) (notice : r.kind ≠ .dataWb) :
    ∃ o, mosiHandle s e r = .ok o := by
  have stands := m.entry.stands
  have within := m.within.mode
  have states : (∃ o c, B.mode = .owned o c ∧ e.state = .O) ∨ e.state = .I ∨ e.state = .S ∨
      e.state = .M ∨ e.state = .MM ∨ e.state = .MO ∨ e.state = .OO ∨ e.state = .SM ∨
      e.state = .OM := by
    cases mode : B.mode <;> simp_all [Stands, Profile.Mode, mosiProfile]
    grind
  rcases m.cases notice with ⟨q, kind, request⟩ | ⟨kind, pos, mode | mode⟩ | ⟨kind, mode⟩
  · rcases states with ⟨o, c, mode, state⟩ | states
    · cases q with
      | read =>
          rw [mosiHandle, state, kind]
          exact askOwner_answers m kind mode
      | write => exact ⟨_, by rw [mosiHandle, state, kind]; rfl⟩
      | upgrade => cases request
    · cases q with
      | read | write =>
          rcases states with state | state | state | state | state | state | state | state <;>
            (rw [mosiHandle, state, kind]; simp only [requestKind]) <;>
            first
            | exact ⟨_, rfl⟩
            | split <;> exact ⟨_, rfl⟩
      | upgrade => cases request
  · obtain ⟨i, mode⟩ := mode
    simp [mode, Stands] at stands
    rw [mosiHandle, stands, kind]
    exact invackSM_answers pos
  · obtain ⟨o, i, c, mode⟩ := mode
    simp [mode, Stands, Profile.Mode, mosiProfile] at stands within
    subst c
    rw [mosiHandle, stands, kind]
    exact invackOwned_answers pos
  · rcases mode with ⟨h, i, mode⟩ | ⟨h, i, mode⟩ | ⟨o, i, c, mode⟩ | ⟨o, i, c, mode⟩ <;>
      simp [mode, Profile.Mode, mosiProfile, Stands] at within stands
    · exact ⟨_, by rw [mosiHandle, stands, kind]⟩
    · subst c
      rcases stands with state | state <;> exact ⟨_, by rw [mosiHandle, state, kind]⟩
    · subst c
      exact ⟨_, by rw [mosiHandle, stands, kind]; rfl⟩

theorem moesif_answers (m : Meets moesifProfile False s.numProcs b e B r)
    (notice : r.kind ≠ .dataWb) : ∃ o, moesifHandle s e r = .ok o := by
  have stands := m.entry.stands
  have within := m.within.mode
  have states : (∃ o c, B.mode = .owned o c ∧ (e.state = .O ∨ e.state = .F)) ∨ e.state = .S ∨
      e.state = .I ∨ e.state = .M ∨ e.state = .E ∨ e.state = .MM ∨ e.state = .EM ∨ e.state = .MO ∨
      e.state = .OO ∨ e.state = .EF ∨ e.state = .FF ∨ e.state = .SM ∨ e.state = .OM ∨
      e.state = .FM := by
    cases mode : B.mode <;> simp_all [Stands, Profile.Mode, moesifProfile] <;> grind
  rcases m.cases notice with ⟨q, kind, request⟩ | ⟨kind, pos, mode | mode⟩ | ⟨kind, mode⟩
  · rcases states with ⟨o, c, mode, state | state⟩ | state | states
    · cases q with
      | read =>
          rw [moesifHandle, state, kind]
          exact askOwner_answers m kind mode
      | write | upgrade => exact ⟨_, by rw [moesifHandle, state, kind]; rfl⟩
    · cases q with
      | read =>
          rw [moesifHandle, state, kind]
          exact askOwner_answers m kind mode
      | write | upgrade => exact ⟨_, by rw [moesifHandle, state, kind]; rfl⟩
    · cases q with
      | read => exact ⟨_, by rw [moesifHandle, state, kind]; rfl⟩
      | write | upgrade =>
          rw [moesifHandle, state, kind]
          simp only [requestKind]
          split <;> exact ⟨_, rfl⟩
    · rcases states with state | state | state | state | state | state | state | state | state |
          state | state | state <;>
        cases q <;> exact ⟨_, by rw [moesifHandle, state, kind]; rfl⟩
  · obtain ⟨i, mode⟩ := mode
    simp [mode, Stands] at stands
    obtain ⟨o, result⟩ : ∃ o, Outcome.invackSM e r "MOESIF dir: too many INVACKs (SM)" = .ok o :=
      invackSM_answers pos
    exact ⟨_, by rw [moesifHandle, stands, kind]; simp only [result]; rfl⟩
  · obtain ⟨o, i, c, mode⟩ := mode
    cases c <;> simp [mode, Stands] at stands <;> rw [moesifHandle, stands, kind] <;>
      exact invackOwned_answers pos
  · rcases mode with ⟨h, i, mode⟩ | ⟨h, i, mode⟩ | ⟨o, i, c, mode⟩ | ⟨o, i, c, mode⟩ <;>
      simp only [mode, Profile.Mode, moesifProfile, Stands] at within stands
    · rcases stands with state | ⟨-, state⟩ <;>
        exact ⟨_, by rw [moesifHandle, state, kind]⟩
    · simp at within
    · cases c <;> rcases stands with state | state <;>
        exact ⟨_, by rw [moesifHandle, state, kind]⟩
    · cases c <;> exact ⟨_, by rw [moesifHandle, stands, kind]; rfl⟩

/-! ## Without evictions nobody is starved -/

theorem mesi_fed (m : Meets mesiProfile False s.numProcs b e B r) (closed : B.Closed mesiProfile) :
    ¬ mesiStarved s e r := by
  rintro ⟨state, -, none⟩
  have alone := m.alone_of_none le_rfl none
  have paired := closed.paired
  simp only [Block.Paired, show B.mode = .shared from m.named state] at paired
  obtain ⟨i, mem, j, mem', ne⟩ := paired rfl
  exact ne ((Finset.mem_singleton.mp (alone mem)).trans (Finset.mem_singleton.mp (alone mem')).symm)

theorem moesif_fed (m : Meets moesifProfile False s.numProcs b e B r)
    (closed : B.Closed moesifProfile) : ¬ moesifStarved s e r := by
  rintro ⟨kind, ⟨state, none⟩ | ⟨state, hopeless⟩⟩ <;> obtain ⟨o, mode⟩ := m.named state
  all_goals
    have owner := m.entry.owner o (by simp [mode, Mode.owner])
    have asks := m.asked (q := .upgrade) kind
    have paired := closed.paired
    simp only [Block.Paired, mode] at paired
    obtain ⟨j, mem, ne⟩ := paired
  · -- The sharer beside the owner would have to be the sender, who wants more than a share.
    have sender : j = r.src := by
      have listed := m.entry.members.mem_presentExcept le_rfl (fun i => i ≠ r.src && i ≠ e.oFId) j
      rw [none, owner] at listed
      simpa [mem, ne] using listed
    have rights := m.inv.rights
    simp only [Block.ModeOk, mode] at rights
    have shared := (rights.2.2 j mem ne).2
    rw [sender, Block.effective_of_asks asks] at shared
    exact (closed.slots r.src).sharers rfl asks shared
  · have sender : r.src = o := by
      have allowed := closed.upgrades r.src asks
      rwa [mode] at allowed
    rcases hopeless with other | none
    · exact other (sender.trans owner.symm)
    · have alone := Finset.mem_singleton.mp (m.alone_of_none le_rfl none mem)
      exact ne (alone.trans sender)

end

/-! ## Both halves together -/

/-- A protocol whose agents and directory are those of a directory protocol. -/
structure Laws (F : ProtocolFsm) extends AgentLaws F where
  /-- A round's entry notes whether its requester is a member. -/
  marks : Prop
  /-- A round would begin to wait for nobody. -/
  starved : Settings → DirEntry → Message → Prop
  refines : ∀ {s b e B r o}, Meets profile marks s.numProcs b e B r → F.handle s e r = .ok o →
    ∃ B', Refines profile marks s.numProcs b (starved s e r) (Wild e r) B r o B'
  answers : ∀ {s b e B r}, Meets profile marks s.numProcs b e B r → r.kind ≠ .dataWb →
    ∃ o, F.handle s e r = .ok o
  fed : ∀ {s b e B r}, Meets profile marks s.numProcs b e B r → B.Closed profile → ¬ starved s e r
  usesE : profile.clean = true → F.usesE = true

def miNetwork : Laws mi where
  toAgentLaws := miLaws
  marks := False
  starved _ _ _ := False
  refines := mi_refines
  answers := mi_answers
  fed _ _ := id
  usesE := nofun

def msiNetwork : Laws msi where
  toAgentLaws := msiLaws
  marks := True
  starved _ _ _ := False
  refines := msi_refines
  answers := msi_answers
  fed _ _ := id
  usesE := nofun

def mesiNetwork : Laws mesi where
  toAgentLaws := mesiLaws
  marks := False
  starved := mesiStarved
  refines := mesi_refines
  answers := mesi_answers
  fed := mesi_fed
  usesE _ := rfl

def mosiNetwork : Laws mosi where
  toAgentLaws := mosiLaws
  marks := False
  starved _ _ _ := False
  refines := mosi_refines
  answers := mosi_answers
  fed _ _ := id
  usesE := nofun

def moesifNetwork : Laws moesif where
  toAgentLaws := moesifLaws
  marks := False
  starved := moesifStarved
  refines := moesif_refines
  answers := moesif_answers
  fed := moesif_fed
  usesE _ := rfl

end Coherence
