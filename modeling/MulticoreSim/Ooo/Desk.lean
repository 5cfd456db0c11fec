import MulticoreSim.Ooo.Stages

/-! # A core and its data cache

What a core reaches of its data cache, and the units that wait for it. Between two
turns of a core the cache changes by calls only: what these keep, a cycle keeps. A
store is issued when no unit waits, and a request carries an address that the reader
delivered.
-/

namespace Ooo

/-- What is around a core apart from its data cache. -/
structure Front where
  State : Type
  next : State → Except String (Option Record × State)
  blocked : State → Bool
  notifyRetire : State → Nat → SyncToken → Nat → Except String State
  predict : State → Branch → Bool × State
  update : State → Branch → Bool → State

/-- What a core reaches of its data cache. -/
structure DataCache where
  State : Type
  full : State → Bool
  ready : State → Nat → Bool
  issue : State → Memory.MemReq → Option Nat × State
  complete : State → Nat → State
  tick : State → State

/-- The surroundings of a core with a data cache. -/
def Front.with (F : Front) (Λ : DataCache) : Surroundings where
  State := F.State × Λ.State
  next o := (F.next o.1).map fun r => (r.1, r.2, o.2)
  blocked o := F.blocked o.1
  notifyRetire o tid token ip := (F.notifyRetire o.1 tid token ip).map fun front => (front, o.2)
  predict o branch := ((F.predict o.1 branch).1, (F.predict o.1 branch).2, o.2)
  update o branch prediction := (F.update o.1 branch prediction, o.2)
  l1Full o := Λ.full o.2
  l1Ready o id := Λ.ready o.2 id
  l1Issue o req := .ok ((Λ.issue o.2 req).1, o.1, (Λ.issue o.2 req).2)
  l1Complete o id := (o.1, Λ.complete o.2 id)
  l1Tick o := (o.1, Λ.tick o.2)

/-! ## Addresses -/

/-- The reader's addresses are of 64 bits. -/
def Front.Words (F : Front) : Prop :=
  ∀ {o o' : F.State} {rec : Record}, F.next o = .ok (some rec, o') → ∀ a ∈ rec.addresses, a < 2 ^ 64

section

variable {S : Surroundings} {W : Nat → Prop}

/-- What was fetched is at addresses of the reader's records. -/
def Addressed (W : Nat → Prop) (log : List Event) : Prop := ∀ inst ∈ Log.fetched log, W inst.memAddr

theorem Addressed.same {log log' : List Event} (addressed : Addressed W log)
    (same : Log.fetched log' = Log.fetched log) : Addressed W log' := by
  unfold Addressed
  rw [same]
  exact addressed

theorem turns_addressed (zero : W 0)
    (gives : ∀ {o o' : S.State} {rec : Record}, S.next o = .ok (some rec, o') → ∀ a ∈ rec.addresses, W a) :
    Core.Turns fun c : Core S => Addressed W c.log where
  retire := by
    intro c c' mispred addressed held ready ran
    have log : c'.log = c.log ++ [.retired c.rob.headEntry.inst c.rob.headEntry.destTag] :=
      Core.retireStep_log ran
    rw [log]
    exact addressed.same (by simp)
  completes := by
    refine ⟨?_, ?_, ?_, ?_⟩
    · intro c c' unit tag addressed _ wrote
      obtain ⟨sched, -, rfl⟩ := Core.writeback_eq wrote
      exact addressed.same (by simp)
    · intro c c' unit tag stage1 stage2 addressed _ wrote
      obtain ⟨sched, -, rfl⟩ := Core.writeback_eq wrote
      exact addressed.same (by simp)
    · exact fun addressed _ => addressed
    · intro c c' unit u addressed _ _ wrote
      obtain ⟨sched, -, rfl⟩ := Core.writeback_eq wrote
      exact addressed.same (by simp)
  fires := by
    refine ⟨?_, ?_, ?_, ?_⟩
    · intro c oldest addressed _ _ _ _
      exact addressed.same (by simp)
    · intro c oldest addressed _ _ _ _
      exact addressed.same (by simp)
    · intro c oldest outside addressed _ _
      exact addressed.same (by simp)
    · intro c oldest mshrId outside addressed _ _ _
      refine addressed.same ?_
      simp only [Log.fetched_snoc, List.append_nil]
  dispatch addressed _ _ := addressed.same (by simp [Core.dispatchOne])
  delivers := by
    refine ⟨fun addressed _ => addressed, fun addressed _ _ => addressed, ?_⟩
    intro c rec outside addressed _ _ delivered inst mem
    have as := Core.predicted_fetchedAs outside rec (c.dynCount + 1)
    simp only [Core.fetchOne, Log.fetched_snoc, List.mem_append, List.mem_singleton] at mem
    rcases mem with old | rfl
    · exact addressed inst old
    · rcases as.memAddr with none | some
      · rw [none]
        exact zero
      · exact gives delivered _ some
  ticks addressed := addressed
  counts _ _ addressed _ := addressed

end

/-! ## The units that wait -/

namespace Core

/-- A store that may be issued finds no unit busy. -/
theorem Steady.alone {S : Surroundings} {c : Core S} (steady : c.Steady) {oldest : SchedEntry}
    (picked : Picked c oldest) (store : oldest.inst.opcode = .store) (u : LsuUnit) :
    some u ∉ c.units.lsu := by
  intro held
  obtain ⟨e, mem, -, issued, -⟩ := steady.loadStore.units u held
  have idle : oldest.busy = false := by
    have canFire := picked.canFire
    simp only [SchedEntry.canFire, Bool.and_eq_true, Bool.not_eq_true'] at canFire
    exact canFire.1.1
  have apart : e.destTag ≠ oldest.destTag := by
    intro same
    have eq := Pipeline.unique_tag steady.nodup mem picked.queued same
    rw [eq, SchedEntry.Issued, idle] at issued
    exact Bool.false_ne_true issued.1
  have linked := steady.sound.linked
  have order := steady.sound.order
  rcases Nat.lt_or_gt_of_ne apart with before | before
  · have older := (linked.older_iff order (linked.dispatched order mem)
      (linked.dispatched order picked.queued)).mpr before
    exact ambiguous_eq_false.mp picked.clear e mem older (conflict_of_store issued.2 (.inr store))
  · have older := (linked.older_iff order (linked.dispatched order picked.queued)
      (linked.dispatched order mem)).mpr before
    exact ambiguous_eq_false.mp (steady.loadStore.clear e mem issued) oldest picked.queued older
      (conflict_of_store picked.isMem (.inl store))

end Core

/-! ## Calls -/

/-- What the calls of a core keep of a data cache and the units that wait for it, where its
    requests are as `ask` says. -/
structure DataCache.Keeps (Λ : DataCache) (ask : List (Option LsuUnit) → Memory.MemReq → Prop)
    (I : Λ.State → List (Option LsuUnit) → Prop) : Prop where
  /-- The cache takes no request. -/
  refused : ∀ {st : Λ.State} {lsu : List (Option LsuUnit)} {req : Memory.MemReq}, I st lsu → ask lsu req →
    (Λ.issue st req).1 = none → I (Λ.issue st req).2 lsu
  issue : ∀ {st : Λ.State} {lsu : List (Option LsuUnit)} {req : Memory.MemReq} {u : LsuUnit}, I st lsu →
    ask lsu req → lsu.any (·.isNone) = true → (Λ.issue st req).1 = some u.mshrId →
    I (Λ.issue st req).2 (Memory.modifyFirst (·.isNone) (fun _ => some u) lsu)
  complete : ∀ {st : Λ.State} {lsu : List (Option LsuUnit)} {unit : Nat} {u : LsuUnit}, I st lsu →
    lsu[unit]? = some (some u) → Λ.ready st u.mshrId = true →
    I (Λ.complete st u.mshrId) (lsu.set unit none)
  tick : ∀ {st : Λ.State} {lsu : List (Option LsuUnit)}, I st lsu → I (Λ.tick st) lsu

namespace Core

variable {F : Front} {Λ : DataCache} {c c' : Core (F.with Λ)}

/-- The data cache and the units that wait for it. -/
def desk (c : Core (F.with Λ)) : Λ.State × List (Option LsuUnit) := (Prod.snd c.outside, c.units.lsu)

theorem trainPredictor_desk (c : Core (F.with Λ)) (inst : Inst) : (c.trainPredictor inst).desk = c.desk := by
  unfold trainPredictor
  split <;> rfl

theorem retireStep_desk {mispred : Bool} (ran : c.retireStep = .ok (mispred, c')) :
    c'.desk = c.desk := by
  have trained := c.trainPredictor_desk c.rob.headEntry.inst
  simp only [retireStep] at ran
  split at ran
  · cases ran
    exact trained
  · split at ran
    · cases ran
      exact trained
    · split at ran
      · cases ran
      · next token sync outside told =>
          have cache : Prod.snd outside = Prod.snd (c.trainPredictor c.rob.headEntry.inst).outside := by
            simp only [Front.with, Except.map] at told
            split at told
            · cases told
            · cases told
              rfl
          cases ran
          rw [← trained]
          exact Prod.ext cache rfl

theorem writeback_desk {tag : Nat} (ran : c.writeback tag = .ok c') : c'.desk = c.desk := by
  obtain ⟨sched, -, rfl⟩ := writeback_eq ran
  rfl

theorem issue_eq {req : Memory.MemReq} {id : Option Nat} {outside : (F.with Λ).State}
    (issued : (F.with Λ).l1Issue c.outside req = .ok (id, outside)) :
    (Λ.issue c.desk.1 req).1 = id ∧ Prod.snd outside = (Λ.issue c.desk.1 req).2 := by
  cases issued
  exact ⟨rfl, rfl⟩

theorem next_eq {rec : Option Record} {outside : (F.with Λ).State}
    (delivered : (F.with Λ).next c.outside = .ok (rec, outside)) : Prod.snd outside = c.desk.1 := by
  simp only [Front.with, Except.map] at delivered
  split at delivered
  · cases delivered
  · cases delivered
    rfl

theorem fetchOne_desk {rec : Record} {outside : (F.with Λ).State}
    (delivered : (F.with Λ).next c.outside = .ok (some rec, outside)) :
    (c.fetchOne rec outside).desk = c.desk := by
  have predicted : Prod.snd (predicted outside rec (c.dynCount + 1)).2 = Prod.snd outside := by
    unfold Core.predicted
    dsimp only
    split <;> rfl
  exact Prod.ext (predicted.trans (next_eq delivered)) rfl

theorem dispatchLoop_desk {width : Nat} : (dispatchLoop width c).desk = c.desk := by
  induction width generalizing c with
  | zero => rfl
  | succ width ih =>
      unfold dispatchLoop
      split
      · rfl
      · split
        · rfl
        · exact ih

theorem fetchLoop_desk {width : Nat} {fetched : Bool} {stall : Option FetchStall}
    (ran : fetchLoop width fetched c = .ok (stall, c')) : c'.desk = c.desk := by
  induction width generalizing c fetched with
  | zero =>
      cases ran
      rfl
  | succ width ih =>
      simp only [fetchLoop] at ran
      split at ran
      · cases ran
        rfl
      · split at ran
        · cases ran
        · next starved =>
            have same := next_eq starved
            split at ran
            all_goals
              cases ran
              exact Prod.ext same rfl
        · next delivered =>
            have same := fetchOne_desk delivered
            split at ran
            · cases ran
              exact same
            · exact (ih ran).trans same

theorem stageFetch_desk (ran : c.stageFetch = .ok c') : c'.desk = c.desk := by
  simp only [stageFetch] at ran
  split at ran
  · cases ran
    rfl
  · split at ran
    · cases ran
      rfl
    · split at ran
      · cases ran
      · next looped =>
          have same := fetchLoop_desk looped
          cases ran
          exact same

theorem next_front {o o' : (F.with Λ).State} {rec : Option Record}
    (delivered : (F.with Λ).next o = .ok (rec, o')) : F.next o.1 = .ok (rec, Prod.fst o') := by
  simp only [Front.with, Except.map] at delivered
  split at delivered
  · cases delivered
  · next read =>
      cases delivered
      exact read

/-- What the calls keep, the turns keep. -/
theorem turns_desk {J : Core (F.with Λ) → Prop} {ask : List (Option LsuUnit) → Memory.MemReq → Prop}
    {I : Λ.State → List (Option LsuUnit) → Prop} (turns : Turns J)
    (asks : ∀ {c : Core (F.with Λ)} {oldest : SchedEntry}, J c → Picked c oldest →
      ask c.desk.2 (c.memReq oldest.inst)) (keeps : Λ.Keeps ask I) :
    Turns fun c : Core (F.with Λ) => J c ∧ I c.desk.1 c.desk.2 := by
  constructor
  case retire =>
    rintro c c' mispred ⟨inv, here⟩ held ready ran
    refine ⟨turns.retire inv held ready ran, ?_⟩
    rw [retireStep_desk ran]
    exact here
  case completes =>
    refine ⟨?_, ?_, ?_, ?_⟩
    · rintro c c' unit tag ⟨inv, here⟩ at_unit wrote
      refine ⟨turns.completes.alu inv at_unit wrote, ?_⟩
      rw [← writeback_desk wrote] at here
      exact here
    · rintro c c' unit tag stage1 stage2 ⟨inv, here⟩ at_unit wrote
      refine ⟨turns.completes.mul inv at_unit wrote, ?_⟩
      rw [← writeback_desk wrote] at here
      exact here
    · rintro c ⟨inv, here⟩ clear
      exact ⟨turns.completes.shift inv clear, here⟩
    · rintro c c' unit u ⟨inv, here⟩ at_unit ready wrote
      refine ⟨turns.completes.lsu inv at_unit ready wrote, ?_⟩
      obtain ⟨sched, -, rfl⟩ := writeback_eq wrote
      exact keeps.complete here at_unit ready
  case fires =>
    refine ⟨?_, ?_, ?_, ?_⟩
    · rintro c oldest ⟨inv, here⟩ queued canFire other isFree
      exact ⟨turns.fires.alu inv queued canFire other isFree, here⟩
    · rintro c oldest ⟨inv, here⟩ queued canFire other isFree
      exact ⟨turns.fires.mul inv queued canFire other isFree, here⟩
    · rintro c oldest outside ⟨inv, here⟩ picked issued
      refine ⟨turns.fires.turnedAway inv picked issued, ?_⟩
      obtain ⟨refused, cache⟩ := issue_eq issued
      have after := keeps.refused here (asks inv picked) refused
      rw [← cache] at after
      exact after
    · rintro c oldest mshrId outside ⟨inv, here⟩ picked isFree issued
      refine ⟨turns.fires.lsu inv picked isFree issued, ?_⟩
      obtain ⟨id, cache⟩ := issue_eq issued
      have after := keeps.issue here (asks inv picked) isFree
        (u := { isLoad := oldest.inst.opcode = .load, mshrId, sched := oldest.destTag }) id
      rw [← cache] at after
      exact after
  case dispatch =>
    rintro c inst rest ⟨inv, here⟩ next room
    exact ⟨turns.dispatch inv next room, here⟩
  case delivers =>
    refine ⟨?_, ?_, ?_⟩
    · rintro c outside ⟨inv, here⟩ starved
      refine ⟨turns.delivers.starved inv starved, ?_⟩
      rw [← next_eq starved] at here
      exact here
    · rintro c outside ⟨inv, here⟩ starved free
      refine ⟨turns.delivers.ended inv starved free, ?_⟩
      rw [← next_eq starved] at here
      exact here
    · rintro c rec outside ⟨inv, here⟩ room unblocked delivered
      refine ⟨turns.delivers.delivered inv room unblocked delivered, ?_⟩
      rw [fetchOne_desk delivered]
      exact here
  case ticks =>
    rintro c ⟨inv, here⟩
    exact ⟨turns.ticks inv, keeps.tick here⟩
  case counts =>
    rintro c stats stallCycles sig ⟨inv, here⟩ same
    exact ⟨turns.counts stallCycles sig inv same, here⟩

/-- What the calls keep whatever is asked for. -/
theorem turns_calls {I : Λ.State → List (Option LsuUnit) → Prop} (keeps : Λ.Keeps (fun _ _ => True) I) :
    Turns fun c : Core (F.with Λ) => I c.desk.1 c.desk.2 := by
  have both := turns_desk (F := F) turns_true (fun _ _ => trivial) keeps
  simpa only [true_and] using both

/-- A request of a core: its address is one of the reader's, and a store waits until no unit
    is busy. -/
structure Asked (W : Nat → Prop) (lsu : List (Option LsuUnit)) (req : Memory.MemReq) : Prop where
  addr : W req.addr
  alone : req.op = .write → ∀ u, some u ∉ lsu

theorem asked {W : Nat → Prop} (steady : c.Steady) (addressed : Addressed W c.log) {oldest : SchedEntry}
    (picked : Picked c oldest) : Asked W c.desk.2 (c.memReq oldest.inst) := by
  refine ⟨addressed _ (steady.sound.linked.fetched steady.sound.order picked.queued), fun write => ?_⟩
  refine steady.alone picked (by_contra fun other => ?_)
  have load : oldest.inst.opcode = .load := by
    have isMem := picked.isMem
    simp only [Opcode.isMem, decide_eq_true_eq] at isMem
    exact isMem.resolve_right other
  simp [memReq, load] at write

end Core

theorem Front.Words.gives {F : Front} {Λ : DataCache} (words : F.Words) {o o' : (F.with Λ).State} {rec : Record}
    (delivered : (F.with Λ).next o = .ok (some rec, o')) : ∀ a ∈ rec.addresses, a < 2 ^ 64 :=
  words (Core.next_front delivered)

end Ooo
