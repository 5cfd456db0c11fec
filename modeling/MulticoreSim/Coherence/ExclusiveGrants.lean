import MulticoreSim.Coherence.Bookkeeping

/-! # Who an exclusive grant is recorded for

The node a directory answers when it leaves an entry in M is the one member the
entry then has, but for a GETX taken up in E from a node the entry does not know.
-/

namespace Coherence

open DirectoryProtocol Outcome

variable {s : Settings} {e : DirEntry} {r : Message} {o : Outcome} {q : NodeId}

/-- The outcome answers a node with ACK or data, at once or from memory. -/
def Outcome.Grants (o : Outcome) (q : NodeId) : Prop :=
  (∃ x ∈ o.sends, x.dest = q ∧ (x.kind = .ack ∨ x.kind = .data)) ∨ ∃ b, o.schedule = some (b, q)

/-! ## The branches that leave M -/

@[simp] theorem addPresence_self (e : DirEntry) (i : NodeId) : (e.addPresence i).presence i = true := by
  simp [DirEntry.addPresence]

@[simp] theorem ensurePresence_self (e : DirEntry) (i : NodeId) :
    (e.ensurePresence i).presence i = true := by
  unfold DirEntry.ensurePresence
  split
  · assumption
  · exact addPresence_self e i

theorem Outcome.Grants.one {x : Send} (grants : o.Grants q) (sends : o.sends = [x])
    (schedule : o.schedule = none) : x.dest = q := by
  rcases grants with ⟨y, mem, dest, -⟩ | ⟨b, eq⟩
  · rw [sends, List.mem_singleton] at mem
    exact mem ▸ dest
  · cases schedule.symm.trans eq

theorem Outcome.Grants.memory {b : BlockId} {i : NodeId} (grants : o.Grants q) (sends : o.sends = [])
    (schedule : o.schedule = some (b, i)) : i = q := by
  rcases grants with ⟨y, mem, -⟩ | ⟨b', eq⟩
  · simp [sends] at mem
  · cases schedule.symm.trans eq
    rfl

theorem memoryGrant_tracks {next : DirState} (grants : (memoryGrant e r next).Grants q) :
    (memoryGrant e r next).entry.presence q = true := by
  cases grants.memory rfl rfl
  exact addPresence_self _ _

theorem transfer_tracks (grants : (transfer e r).Grants q) :
    (transfer e r).entry.presence q = true := by
  cases grants.one rfl rfl
  exact addPresence_self _ _

theorem silentUpgrade_tracks (grants : (silentUpgrade e r).Grants q) (state : e.state = .E)
    (kind : r.kind = .getx) (known : ¬ Wild e r) : (silentUpgrade e r).entry.presence q = true := by
  cases grants.one rfl rfl
  by_contra absent
  exact known ⟨state, kind, by simpa [silentUpgrade] using absent⟩

theorem silentUpgrade_grants (e : DirEntry) (r : Message) : (silentUpgrade e r).Grants r.src :=
  .inl ⟨_, List.mem_singleton_self _, rfl, .inl rfl⟩

theorem invackSM_tracks {tooMany : String} (step : invackSM e r tooMany = .ok o)
    (grants : o.Grants q) : o.entry.presence q = true := by
  unfold invackSM at step
  simp only at step
  split at step
  · split at step
    · split at step
      · next present =>
          cases step
          cases grants.one rfl rfl
          exact present
      · cases step
        cases grants.memory rfl rfl
        exact addPresence_self _ _
    · cases step
      rcases grants with ⟨x, mem, -⟩ | ⟨b, eq⟩
      · cases mem
      · cases eq
  · cases step

theorem dataOwned_tracks {always : Bool} (grants : (dataOwned e r always).Grants q) :
    (dataOwned e r always).entry.presence q = true := by
  unfold dataOwned at grants ⊢
  simp only at grants ⊢
  by_cases present : (e.dropPresence e.oFId).presence e.reqNodeInTransient = true
  · have eq : (e.dropPresence e.oFId).reqNodeInTransient = e.reqNodeInTransient := rfl
    simp only [eq, present, if_true] at grants ⊢
    cases grants.one rfl rfl
    exact present
  · have eq : (e.dropPresence e.oFId).reqNodeInTransient = e.reqNodeInTransient := rfl
    simp only [eq, present, if_false, Bool.false_eq_true] at grants ⊢
    cases grants.one rfl rfl
    exact addPresence_self _ _

/-- The owner of the line is answered where it is the requester, and is not the one
    whose invalidation is counted in. -/
theorem invackOwned_tracks {tooMany : String} (step : invackOwned e r tooMany = .ok o)
    (other : r.src ≠ e.oFId) (owner : e.presence e.oFId = true) (transient : e.state ≠ .M)
    (leaves : o.entry.state = .M) (grants : o.Grants q) : o.entry.presence q = true := by
  unfold invackOwned at step
  simp only at step
  split at step
  · split at step
    · split at step
      · next same =>
          cases step
          cases grants.one rfl rfl
          have same : e.reqNodeInTransient = e.oFId := same.2
          simp [DirEntry.dropPresence, same, other.symm, owner]
      · cases step
        exact absurd leaves transient
    · cases step
      exact absurd leaves transient
  · cases step

/-- A message put back in the queue answers nobody. -/
theorem cycle_silent : ¬ (Outcome.cycle e).Grants q := by
  rintro (⟨x, mem, -⟩ | ⟨b, eq⟩)
  · cases mem
  · cases eq

/-! ## The two directories -/

theorem mesi_silent (s : Settings) (e : DirEntry) (r : Message) (state : e.state = .E)
    (kind : r.kind = .getx) : mesi.handle s e r = .ok (silentUpgrade e r) := by
  simp only [mesi, mesiHandle, state, kind]

theorem moesif_silent (s : Settings) (e : DirEntry) (r : Message) (state : e.state = .E)
    (kind : r.kind = .getx) : moesif.handle s e r = .ok (silentUpgrade e r) := by
  simp only [moesif, moesifHandle, state, kind]

theorem mesi_tracks (step : mesiHandle s e r = .ok o) (grants : o.Grants q)
    (leaves : o.entry.state = .M) (known : ¬ Wild e r) : o.entry.presence q = true := by
  unfold mesiHandle at step
  split at step
  case h_1 | h_2 =>
    cases step
    exact memoryGrant_tracks grants
  case h_7 | h_13 =>
    cases step
    exact transfer_tracks grants
  case h_11 state kind =>
    cases step
    exact silentUpgrade_tracks grants state kind known
  case h_17 =>
    exact invackSM_tracks step grants
  all_goals cases step <;> first | cases leaves | exact absurd grants cycle_silent

variable {b : BlockId} {B : Block NodeId}

/-- The last answer of a round about an owned line. -/
theorem owned_tracks {P : Profile} {marks : Prop} {n : Nat}
    (m : Meets P marks n b e B r) {tooMany : String} (step : invackOwned e r tooMany = .ok o)
    (kind : r.kind = .invack) {w i : NodeId} {c recalled : Bool}
    (mode : B.mode = .reclaim w i c recalled) (transient : e.state ≠ .M)
    (leaves : o.entry.state = .M) (grants : o.Grants q) : o.entry.presence q = true := by
  have owner : e.oFId = w := m.entry.owner w (by simp [mode, Mode.owner])
  obtain ⟨-, other, -⟩ := m.collectorOwned kind mode
  have present := (m.entry.members.presence w).mpr (m.owner_mem mode)
  subst owner
  exact invackOwned_tracks step other.symm present transient leaves grants

theorem moesif_tracks (m : Meets moesifProfile False s.numProcs b e B r)
    (step : moesifHandle s e r = .ok o) (grants : o.Grants q) (leaves : o.entry.state = .M)
    (known : ¬ Wild e r) : o.entry.presence q = true := by
  unfold moesifHandle at step
  split at step
  case h_1 | h_2 =>
    cases step
    exact memoryGrant_tracks grants
  case h_4 state kind =>
    cases step
    simp [state] at leaves
  case h_5 | h_6 =>
    simp only at step
    split at step
    · cases step
      cases grants.one rfl rfl
      exact ensurePresence_self _ _
    · cases step
      cases leaves
  case h_7 =>
    cases result : invackSM e r "MOESIF dir: too many INVACKs (SM)" with
    | error what => simp [result, Except.map] at step
    | ok o' =>
        simp only [result, Except.map] at step
        cases step
        exact invackSM_tracks result (o := o') grants
  case h_11 | h_17 =>
    cases step
    exact transfer_tracks grants
  case h_15 state kind =>
    cases step
    exact silentUpgrade_tracks grants state kind known
  case h_18 | h_24 =>
    cases step
    unfold reclaim at leaves
    simp only at leaves
    split at leaves <;> cases leaves
  case h_19 | h_25 =>
    unfold askOwner at step
    split at step
    · cases step
    · cases step
      cases leaves
  case h_22 state kind | h_27 state kind =>
    obtain ⟨w, i, recalled, mode⟩ := m.named state
    exact owned_tracks m step kind mode (by simp [state]) leaves grants
  case h_23 | h_28 =>
    cases step
    exact dataOwned_tracks grants
  all_goals cases step <;> first | cases leaves | exact absurd grants cycle_silent

/-! ## Grants along a run -/

/-- The entry knows of one node and no other. -/
def DirEntry.Tracks (e : DirEntry) (q : NodeId) : Prop := ∀ i, e.presence i = true ↔ i = q

/-- An entry left in M tracks the node it answers if it has it present at all. -/
theorem Refines.tracks {P : Profile} {marks starved wild : Prop} {n : Nat} {b : BlockId}
    {B B' : Block NodeId} (refines : Refines P marks n b starved wild B r o B') (inv : B.Inv)
    (leaves : o.entry.state = .M) (present : o.entry.presence q = true) : o.entry.Tracks q := by
  obtain ⟨h, c, mode⟩ := single_mode refines.entry.stands (.inl leaves)
  have rights := (refines.steps.inv inv).rights
  simp only [Block.ModeOk, mode] at rights
  have only : ∀ i, o.entry.presence i = true ↔ i = h := by
    intro i
    rw [refines.entry.members.presence, rights.1, Finset.mem_singleton]
  have holder : q = h := (only q).mp present
  exact holder ▸ only

/-- A GETX taken up in E is answered to its sender, whatever the entry knows. -/
theorem wild_tracks {F : ProtocolFsm} (upgrades : ∀ s e r, e.state = .E → r.kind = .getx →
      F.handle s e r = .ok (silentUpgrade e r)) (step : F.handle s e r = .ok o)
    (grants : o.Grants q) (wild : Wild e r) : ¬ o.entry.Tracks q := by
  obtain ⟨state, kind, absent⟩ := wild
  cases (upgrades s e r state kind).symm.trans step
  cases grants.one rfl rfl
  intro tracks
  have present : e.presence r.src = true := (tracks r.src).mpr rfl
  cases absent.symm.trans present

/-- What holds of the grants of one protocol, over any port. -/
theorem tracks_iff {F : ProtocolFsm} {π : CpuPort} {L : Laws F} {R : π.State → BlockId → Prop}
    {σ : System F π} {lines : BlockId → Block NodeId} (shows : Shows L R s σ lines)
    (small : s.numProcs ≤ kMaxSharers)
    (upgrades : ∀ s e r, e.state = .E → r.kind = .getx → F.handle s e r = .ok (silentUpgrade e r))
    (tracks : Meets L.profile L.marks s.numProcs r.block (σ.dir.directory r.block) (lines r.block) r →
      ¬ Wild (σ.dir.directory r.block) r → o.entry.presence q = true)
    {rest : List Message} (free : σ.dir.requestInProgress = false)
    (queue : σ.dir.requestQueue = r :: rest)
    (step : F.handle s (σ.dir.directory r.block) r = .ok o) (grants : o.Grants q)
    (leaves : o.entry.state = .M) :
    o.entry.Tracks q ↔ ¬ Wild (σ.dir.directory r.block) r := by
  constructor
  · intro tracked wild
    exact wild_tracks upgrades step grants wild tracked
  · intro known
    have meets := (shows.abs r.block).meets shows.net small free queue
    obtain ⟨B', refines⟩ := L.refines meets step
    exact refines.tracks (shows.abs r.block).inv leaves (tracks meets known)

/-- As `tracks_iff`, for the two protocols with exclusive grants. -/
theorem exclusive_tracks_iff {p : Protocol} (exclusive : p = .MESI ∨ p = .MOESIF)
    {σ : System p.fsm adapterPort} {lines : BlockId → Block NodeId} {R : CoherenceAdapter → BlockId → Prop}
    (shows : Shows p.laws R s σ lines) (small : s.numProcs ≤ kMaxSharers) {rest : List Message}
    (free : σ.dir.requestInProgress = false) (queue : σ.dir.requestQueue = r :: rest)
    (step : p.fsm.handle s (σ.dir.directory r.block) r = .ok o) (grants : o.Grants q)
    (leaves : o.entry.state = .M) :
    o.entry.Tracks q ↔ ¬ Wild (σ.dir.directory r.block) r := by
  rcases exclusive with rfl | rfl
  · exact tracks_iff shows small mesi_silent
      (fun _ known => mesi_tracks step grants leaves known) free queue step grants leaves
  · exact tracks_iff shows small moesif_silent
      (fun meets known => moesif_tracks meets step grants leaves known) free queue step grants leaves

/-- In every full-mode run of MESI and MOESIF: the node the directory answers when it
    leaves an entry in M is the one node the entry has present, but for a GETX taken up
    in E from a node the entry does not have present. -/
theorem exclusive_grants_tracked (s : Settings) (small : s.numProcs ≤ kMaxSharers)
    (exclusive : s.protocol = .MESI ∨ s.protocol = .MOESIF) (l1 l2 : Memory.Config) :
    ∀ σ, (System.machine s.protocol.fsm adapterPort s).Reachable
        (fullMode s.protocol.fsm s l1 l2) σ →
      ∀ r rest o q, σ.dir.requestInProgress = false → σ.dir.requestQueue = r :: rest →
        s.protocol.fsm.handle s (σ.dir.directory r.block) r = .ok o → o.Grants q →
        o.entry.state = .M →
        (o.entry.Tracks q ↔ ¬ Wild (σ.dir.directory r.block) r) := by
  intro σ reached r rest o q free queue step grants leaves
  obtain ⟨lines, shows⟩ := Shows.reached s.protocol.laws adapter_laws small reached
  exact exclusive_tracks_iff exclusive shows small free queue step grants leaves

/-- An L1 of two blocks. -/
def tinyL1 : Memory.Config := { c := 7, b := 6, s := 0, mshrEntries := 4 }

def forgottenSettings : Settings :=
  { protocol := .MESI, numProcs := 2, memLatency := 1, cacheMode := .sharedLls }

/-- The first store to a block reaches the directory. -/
def firstStore : System mesi adapterPort :=
  (System.machine mesi adapterPort forgottenSettings).attempt
    (fullMode mesi forgottenSettings tinyL1 {}) ([store 0 0] ++ cycles 2 3)

def firstRequest : Message :=
  { src := 0, dst := 2, block := 0, kind := .getm, flits := 0 }

theorem firstStore_head :
    firstStore.dir.requestInProgress = false ∧ firstStore.dir.requestQueue = [firstRequest] ∧
      (firstStore.dir.directory firstRequest.block).state = .I ∧
      ¬ Wild (firstStore.dir.directory firstRequest.block) firstRequest := by
  decide +kernel

theorem exclusive_grants_tracked_first_store :
    (memoryGrant (firstStore.dir.directory firstRequest.block) firstRequest .M).entry.Tracks 0 := by
  obtain ⟨free, queue, state, known⟩ := firstStore_head
  have step : mesi.handle forgottenSettings (firstStore.dir.directory firstRequest.block) firstRequest =
      .ok (memoryGrant (firstStore.dir.directory firstRequest.block) firstRequest .M) := by
    simp only [mesi, mesiHandle, state]
    rfl
  exact (exclusive_grants_tracked forgottenSettings (by decide) (.inl rfl) tinyL1 {} firstStore
    (Machine.reachable_attempt _ _) firstRequest [] _ _ free queue step (.inr ⟨_, rfl⟩) rfl).mpr known

/-! ## A grant to a node that was forgotten -/

/-- Core 0 loads a block, loses it to another, core 1 loads it, core 0 stores to it. -/
def forgottenUpgrade : System mesi adapterPort :=
  (System.machine mesi adapterPort forgottenSettings).attempt
    (fullMode mesi forgottenSettings tinyL1 {})
    ([load 0 0] ++ cycles 2 6 ++ [load 0 128] ++ cycles 2 6 ++ [load 1 0] ++ cycles 2 6 ++
      [store 0 0] ++ cycles 2 3)

def forgottenRequest : Message :=
  { src := 0, dst := 2, block := 0, kind := .getx, flits := 0 }

theorem forgottenUpgrade_head :
    forgottenUpgrade.dir.requestInProgress = false ∧
      forgottenUpgrade.dir.requestQueue = [forgottenRequest] ∧
      Wild (forgottenUpgrade.dir.directory forgottenRequest.block) forgottenRequest := by
  decide +kernel

/-- The directory may answer a GETX and leave M without recording its sender. -/
theorem exclusive_grant_untracked :
    ∃ σ, (System.machine mesi adapterPort forgottenSettings).Reachable
        (fullMode mesi forgottenSettings tinyL1 {}) σ ∧
      ∃ r rest o, σ.dir.requestInProgress = false ∧ σ.dir.requestQueue = r :: rest ∧
        r.kind = .getx ∧ mesi.handle forgottenSettings (σ.dir.directory r.block) r = .ok o ∧
        o.Grants r.src ∧ o.entry.state = .M ∧ ¬ o.entry.Tracks r.src := by
  obtain ⟨free, queue, wild⟩ := forgottenUpgrade_head
  have step := mesi_silent forgottenSettings _ forgottenRequest wild.1 rfl
  have grants := silentUpgrade_grants (forgottenUpgrade.dir.directory forgottenRequest.block)
    forgottenRequest
  exact ⟨forgottenUpgrade, Machine.reachable_attempt _ _, forgottenRequest, [], _, free, queue, rfl,
    step, grants, rfl, wild_tracks mesi_silent step grants wild⟩

end Coherence
