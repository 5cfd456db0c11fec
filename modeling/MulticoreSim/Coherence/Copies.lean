import MulticoreSim.Coherence.Fills
import MulticoreSim.Coherence.Requests
import MulticoreSim.Coherence.FillLanding
import MulticoreSim.Memory.Fading

/-! # The copies of a core

A core has a block where one of its caches holds it or a fill of it waits in the
adapter. Only an agent's answer brings a block in: what the caches do among themselves
and at the network's orders only ever gives blocks up.
-/

namespace Coherence

open Memory

variable {F : ProtocolFsm} {s : Settings} {i : NodeId} {l1 l2 : Config} {b : BlockId}

/-! ## Block numbers and their addresses -/

/-- The address of a block number, all of whose bits come back. -/
def Whole (s : Settings) (b : BlockId) : Prop := toByteBlock s (toCacheBlock s b) = b

instance (s : Settings) (b : BlockId) : Decidable (Whole s b) := by
  unfold Whole
  infer_instance

theorem whole_toByteBlock (s : Settings) (B : Nat) : Whole s (toByteBlock s B) := by
  rw [Whole, toCacheBlock_back]
  unfold toByteBlock shiftLeft64
  rw [Nat.shiftLeft_eq, Nat.shiftLeft_eq]
  by_cases le : s.blockSizeLog2 ≤ 64
  · have split : 2 ^ 64 = 2 ^ (64 - s.blockSizeLog2) * 2 ^ s.blockSizeLog2 := by
      rw [← Nat.pow_add, Nat.sub_add_cancel le]
    rw [split, Nat.mul_mod_mul_right, Nat.mul_mod_mul_right, Nat.mod_mod]
  · have multiple : ∀ x, x * 2 ^ s.blockSizeLog2 % 2 ^ 64 = 0 := fun x =>
      Nat.mod_eq_zero_of_dvd (Dvd.dvd.mul_left (Nat.pow_dvd_pow 2 (by omega)) x)
    rw [multiple, multiple]

theorem Whole.bound (whole : Whole s b) : toCacheBlock s b < 2 ^ (64 - s.blockSizeLog2) := by
  apply shiftRight_lt
  rw [← whole]
  exact shiftLeft64_lt _ _

theorem Whole.eq {b' : BlockId} (whole : Whole s b) (whole' : Whole s b')
    (same : toCacheBlock s b = toCacheBlock s b') : b = b' := by
  rw [← whole, ← whole', same]

theorem number_back {B : Nat} (fits : B < 2 ^ (64 - s.blockSizeLog2)) :
    toCacheBlock s (toByteBlock s B) = B := by
  rw [toCacheBlock_back, Nat.mod_eq_of_lt fits]

namespace CoherenceAdapter

variable {a : CoherenceAdapter}

/-- One of the caches holds the block. -/
def Lodges (a : CoherenceAdapter) (B : Nat) : Prop :=
  a.l1d.isInCache B = true ∨ ∃ c ∈ a.l2d, c.isInCache B = true

/-- One of the caches holds the block of an address. -/
def Holds (s : Settings) (a : CoherenceAdapter) (b : BlockId) : Prop := a.Lodges (toCacheBlock s b)

/-- One of the caches holds the block, or is about to be filled with it. -/
def Has (s : Settings) (a : CoherenceAdapter) (b : BlockId) : Prop :=
  Whole s b ∧ (a.Holds s b ∨ ∃ m ∈ a.cacheInNext, m.block = b)

instance (a : CoherenceAdapter) (B : Nat) : Decidable (a.Lodges B) :=
  decidable_of_iff (a.l1d.isInCache B = true ∨ (a.l2d.any fun c => c.isInCache B) = true)
    (or_congr_right (by simp [Option.any_eq_true]))

instance (s : Settings) (a : CoherenceAdapter) (b : BlockId) : Decidable (a.Holds s b) :=
  inferInstanceAs (Decidable (a.Lodges (toCacheBlock s b)))

instance (s : Settings) (a : CoherenceAdapter) (b : BlockId) : Decidable (a.Has s b) :=
  decidable_of_iff (Whole s b ∧ (a.Holds s b ∨ (a.cacheInNext.any fun m => decide (m.block = b)) = true))
    (and_congr_right fun _ => or_congr_right (by simp [Option.any_eq_true]))

/-! ## What the calls leave of the copies -/

theorem Lodges.of_found {a' : CoherenceAdapter} {B : Nat} (lodges : a'.Lodges B)
    (upper : a'.l1d.isInCache B = true → a.l1d.isInCache B = true)
    (lower : ∀ c' ∈ a'.l2d, ∃ c ∈ a.l2d, c'.isInCache B = true → c.isInCache B = true) : a.Lodges B := by
  rcases lodges with here | ⟨c', mem, here⟩
  · exact .inl (upper here)
  · obtain ⟨c, there, sub⟩ := lower c' mem
    exact .inr ⟨c, there, sub here⟩

/-- Orders of the network only take copies away. -/
theorem Lodges.event {B : Nat} (m : Message) (lodges : (a.onNtwkEvent s m).Lodges B) : a.Lodges B := by
  unfold onNtwkEvent at lodges
  simp only at lodges
  split at lodges
  case h_1 | h_2 =>
    apply lodges.of_found
    · exact Cache.resident_of_invalidate
    · intro c' mem
      obtain ⟨c, there, rfl⟩ := Option.map_eq_some_iff.mp mem
      exact ⟨c, there, Cache.resident_of_invalidate⟩
  case h_3 =>
    split at lodges
    · exact lodges
    · apply lodges.of_found
      · exact Cache.resident_of_mark
      · intro c' mem
        obtain ⟨c, there, rfl⟩ := Option.map_eq_some_iff.mp mem
        exact ⟨c, there, Cache.resident_of_mark⟩
  case h_4 => exact lodges

theorem Has.event {s' : Settings} (m : Message) (has : (a.onNtwkEvent s' m).Has s b) : a.Has s b := by
  obtain ⟨whole, copy⟩ := has
  rw [onNtwkEvent_slot] at copy
  exact ⟨whole, copy.imp_left (Lodges.event m)⟩

/-- The adapter's laws for the copies it really has. -/
theorem has_laws (s : Settings) : PortLaws adapterPort (Has s) where
  tick_sends _ _ st c := st.tick_notices c
  external_sends := by
    rintro s i st c e p ⟨⟩
    exact st.core_notices c e
  tock _ _ := id
  deposit st m b has := by
    obtain ⟨whole, holds | ⟨m', mem, same⟩⟩ := has
    · exact .inl ⟨whole, .inl holds⟩
    · cases mem
      exact .inr same.symm
  event _ st m _ has := Has.event (a := st) m has

/-! ### A level with a sink brings nothing in -/

/-- What the level below is after a call: as set up before, with no block it did not hold. -/
def Ebbs (l2d l2d' : Option Cache) : Prop :=
  ∀ c' ∈ l2d', ∃ c ∈ l2d, c'.cfg = c.cfg ∧ ∀ B, c'.isInCache B = true → c.isInCache B = true

theorem Ebbs.refl (l2d : Option Cache) : Ebbs l2d l2d := fun c mem => ⟨c, mem, rfl, fun _ => id⟩

theorem Ebbs.access {l2d l2d' : Option Cache} (sink : ∀ c ∈ l2d, c.cfg.coherenceSink = true)
    (ebbs : Ebbs l2d l2d') {req : MemReq} {y} (answer : Below.cache.access l2d' req = some y) :
    Ebbs l2d y.1 := by
  cases l2d' with
  | none => cases answer
  | some c' =>
      cases answer
      obtain ⟨c, there, cfg, sub⟩ := ebbs c' rfl
      intro c'' mem
      cases mem
      refine ⟨c, there, ?_, fun B here => sub B ?_⟩
      · exact (Cache.access_same (β := .nothing) c' () req).cfg.trans cfg
      · apply Cache.access_nothing _ here
        rw [cfg]
        exact sink c there

/-- A stack whose lowest level has the sink and whose levels cut addresses into the same blocks. -/
structure Stacked (a : CoherenceAdapter) : Prop where
  sink : ∀ c ∈ a.l2d, c.cfg.coherenceSink = true
  alone : a.l2d = none → a.l1d.cfg.coherenceSink = true
  shift : ∀ c ∈ a.l2d, c.cfg.b = a.l1d.cfg.b

theorem Wired.stacked (wired : a.Wired s l1 l2) (same : s.cacheMode = .privateL2 → l1.b = l2.b) :
    a.Stacked where
  sink c mem := by rw [(wired.lower_cfg mem).1]
  alone none := by
    have lower := wired.lower
    have upper := wired.upper
    unfold wire at lower upper
    split at lower
    · next mode =>
        rw [mode] at upper
        rw [upper]
        rfl
    · rw [none] at lower
      cases lower
  shift c mem := by
    obtain ⟨cfg, mode⟩ := wired.lower_cfg mem
    rw [cfg, wired.upper_shift]
    exact (same mode).symm

/-- The level below answers a miss of the L1 only with a block it has. -/
theorem Stacked.answered (stacked : a.Stacked) {req : MemReq} (bound : req.addr < 2 ^ 64) {op : Op}
    (answered : a.l1d.Answered (β := .cache) a.l2d req op) :
    ∃ c ∈ a.l2d, c.isInCache (a.l1d.getBlockAddr req.addr) = true := by
  cases below : a.l2d with
  | none =>
      rw [below] at answered
      have sinkless : a.l1d.cfg.coherenceSink = false := answered
      cases (stacked.alone below).symm.trans sinkless
  | some c =>
      refine ⟨c, rfl, ?_⟩
      by_contra missing
      let down : MemReq :=
        { addr := shiftLeft64 (a.l1d.getBlockAddr req.addr) a.l1d.cfg.b, pc := req.pc
          originatingOp := op, tid := req.tid }
      have same : c.getBlockAddr down.addr = a.l1d.getBlockAddr req.addr := by
        have fits : a.l1d.getBlockAddr req.addr < 2 ^ (64 - a.l1d.cfg.b) := shiftRight_lt bound _
        rw [Cache.getBlockAddr, stacked.shift c below]
        exact (shiftLeft64_shiftRight _ _).trans (Nat.mod_eq_of_lt fits)
      have out : c.blockIn down.addr = false := by
        rw [Cache.blockIn, same]
        simpa using missing
      have asks : (c.access (β := .nothing) () down).2.latency = coherenceSuspendedLatency :=
        (Cache.missing_asks (stacked.sink c below) (show down.op.isWrite = false from rfl) out).2
      rw [below] at answered
      unfold Cache.Answered at answered
      simp only [down] at asks
      simp only [Below.cache, Option.map_some, asks, decide_true] at answered
      cases answered

/-- What the core does brings nothing in. -/
theorem Lodges.core (stacked : a.Stacked) {slot : Option Message} {event : CoreEvent}
    (bound : ∀ req, event = .issue req → req.addr < 2 ^ 64) {B : Nat}
    (lodges : (a.core s i slot event).state.Lodges B) : a.Lodges B := by
  cases event with
  | complete id | tick => exact lodges
  | issue req =>
      have ebbs := Cache.issue_below (β := .cache) (c := a.l1d) (P := Ebbs a.l2d)
        (fun _ _ _ ebbs answer => Ebbs.access stacked.sink ebbs answer) (.refl a.l2d) req
      obtain ⟨l1d, l2d⟩ := sink_caches (s := s) (i := i)
        (a := { a with
          l1d := (a.l1d.issue (β := .cache) a.l2d req).1.cache
          l2d := (a.l1d.issue (β := .cache) a.l2d req).1.below })
        (a.l1d.issue (β := .cache) a.l2d req).1.calls
      unfold Lodges at lodges
      simp only [CoherenceAdapter.core, settle] at lodges
      rw [l1d, l2d] at lodges
      rcases lodges with here | ⟨c', mem, here⟩
      · rcases Cache.issue_resident here with old | ⟨rfl, op, answered⟩
        · exact .inl old
        · exact .inr (stacked.answered (bound req rfl) answered)
      · obtain ⟨c, there, -, sub⟩ := ebbs c' mem
        exact .inr ⟨c, there, sub _ here⟩

theorem Has.core (stacked : a.Stacked) {slot : Option Message} {event : CoreEvent}
    (bound : ∀ req, event = .issue req → req.addr < 2 ^ 64)
    (has : (a.core s i slot event).state.Has s b) : a.Has s b := by
  obtain ⟨whole, copy⟩ := has
  rw [core_slot] at copy
  exact ⟨whole, copy.imp_left (Lodges.core stacked bound)⟩

/-! ### A fill brings its own block in -/

theorem Lodges.fill (stacked : a.Stacked) (m : Message) {B : Nat} (other : B ≠ toCacheBlock s m.block)
    (lodges : (a.fill s i m).1.Lodges B) : a.Lodges B := by
  obtain ⟨upper, lower⟩ := fill_caches (a := a) (s := s) (i := i) m
  have sink : ∀ c ∈ a.filledL2 (toCacheBlock s m.block), c.cfg.coherenceSink = true := by
    intro c mem
    obtain ⟨c₀, there, rfl⟩ := Option.map_eq_some_iff.mp mem
    exact (congrArg (·.coherenceSink) (Cache.fill_same (β := .nothing) false).cfg).trans
      (stacked.sink c₀ there)
  have ebbs := Cache.fill_below (β := .cache) (c := a.l1d)
    (P := Ebbs (a.filledL2 (toCacheBlock s m.block))) (fun _ _ _ ebbs answer => Ebbs.access sink ebbs answer)
    (.refl _) (toCacheBlock s m.block) (a.pendingStores m.block)
  unfold Lodges at lodges
  rw [upper, lower] at lodges
  rcases lodges with here | ⟨c', mem, here⟩
  · exact .inl ((Cache.fades_fill _ _ _ other).resident here)
  · obtain ⟨c, there, rfl⟩ := Option.map_eq_some_iff.mp mem
    obtain ⟨filled, inside, -, sub⟩ := ebbs c there
    obtain ⟨c₀, old, rfl⟩ := Option.map_eq_some_iff.mp inside
    exact .inr ⟨c₀, old, (Cache.fades_fill (β := .nothing) _ _ _ other).resident (sub B here)⟩

theorem Lodges.tick (stacked : a.Stacked) (slot : Option Message) {B : Nat}
    (lodges : (a.tick s i slot).state.Lodges B) :
    a.Lodges B ∨ ∃ m ∈ a.cacheInNext, B = toCacheBlock s m.block := by
  obtain ⟨l1d, l2d, waits⟩ := drain_fields (a := a) slot
  unfold CoherenceAdapter.tick at lodges
  simp only at lodges
  split at lodges
  · left
    unfold Lodges at lodges ⊢
    rwa [l1d, l2d] at lodges
  · next m here =>
      by_cases eq : B = toCacheBlock s m.block
      · exact .inr ⟨m, waits ▸ here, eq⟩
      · left
        have drained : (a.drain slot).1.Stacked :=
          ⟨by rw [l2d]; exact stacked.sink, by rw [l1d, l2d]; exact stacked.alone,
            by rw [l1d, l2d]; exact stacked.shift⟩
        have old := Lodges.fill drained m eq lodges
        unfold Lodges at old ⊢
        rwa [l1d, l2d] at old

/-- A tick takes the waiting fill in and nothing else. -/
theorem Has.tick (stacked : a.Stacked) (asked : ∀ m ∈ a.cacheInNext, Whole s m.block)
    {slot : Option Message} (has : (a.tick s i slot).state.Has s b) : a.Has s b := by
  obtain ⟨whole, copy⟩ := has
  refine ⟨whole, ?_⟩
  rw [tick_slot] at copy
  rcases copy with lodges | ⟨m, none, -⟩
  · rcases Lodges.tick stacked slot lodges with old | ⟨m, mem, same⟩
    · exact .inl old
    · exact .inr ⟨m, mem, (whole.eq (asked m mem) same).symm⟩
  · cases none

/-- The caches hold only block numbers that come back from their addresses. -/
def Fits (s : Settings) (a : CoherenceAdapter) : Prop :=
  ∀ B, a.Lodges B → B < 2 ^ (64 - s.blockSizeLog2)

theorem Fits.tick (fits : a.Fits s) (stacked : a.Stacked) (asked : ∀ m ∈ a.cacheInNext, Whole s m.block)
    (slot : Option Message) : (a.tick s i slot).state.Fits s := by
  intro B lodges
  rcases Lodges.tick stacked slot lodges with old | ⟨m, mem, rfl⟩
  · exact fits B old
  · exact (asked m mem).bound

/-- A resident block is one the core has. -/
theorem Fits.has (fits : a.Fits s) {B : Nat} (lodges : a.Lodges B) : a.Has s (toByteBlock s B) := by
  refine ⟨whole_toByteBlock s B, .inl ?_⟩
  unfold Holds
  rwa [number_back (fits B lodges)]

/-- The caches start empty. -/
theorem wire_empty (s : Settings) (l1 l2 : Config) (B : Nat) : ¬ (wire s l1 l2).Lodges B := by
  intro lodges
  unfold wire at lodges
  split at lodges
  · rcases lodges with here | ⟨c, none, -⟩
    · cases here
    · cases none
  · rcases lodges with here | ⟨c, some, here⟩
    · cases here
    · cases some
      cases here

theorem wire_idle (s : Settings) (l1 l2 : Config) :
    (wire s l1 l2).cacheInNext = none ∧ (wire s l1 l2).outboundProc = [] := by
  unfold wire
  split <;> exact ⟨rfl, rfl⟩

theorem wire_without (s : Settings) (l1 l2 : Config) (b : BlockId) : ¬ (wire s l1 l2).Has s b := by
  rintro ⟨-, lodges | ⟨m, mem, -⟩⟩
  · exact wire_empty s l1 l2 _ lodges
  · cases (wire_idle s l1 l2).1.symm.trans mem

/-- What is asked for along the way is asked for by whole addresses. -/
theorem sink_asks {calls : List SinkCall} {m : Message} (mem : m ∈ (a.sink s i calls).1.outboundProc) :
    m ∈ a.outboundProc ∨ Whole s m.block := by
  induction calls generalizing a with
  | nil => exact .inl mem
  | cons call rest ih =>
      cases call with
      | onEvict blockAddr dirty => exact ih mem
      | onMiss blockAddr op =>
          rcases ih mem with old | whole
          · rcases List.mem_append.mp old with old | new
            · exact .inl old
            · rw [List.mem_singleton.mp new]
              exact .inr (whole_toByteBlock s blockAddr)
          · exact .inr whole

end CoherenceAdapter

/-! ## The blocks of a node -/

namespace CpuNode

open CoherenceAdapter

variable {n n' : CpuNode F adapterPort} {st st' : CoherenceStats} {L : AgentLaws F}

/-- Whatever the node holds, asks for or has a right to goes by a whole address. -/
structure Wholesome (L : AgentLaws F) (s : Settings) (n : CpuNode F adapterPort) : Prop where
  fits : CoherenceAdapter.Fits s n.cpu
  filling : ∀ m ∈ CoherenceAdapter.cacheInNext n.cpu, Whole s m.block
  asked : ∀ m ∈ CoherenceAdapter.outboundProc n.cpu, Whole s m.block
  next : ∀ m ∈ n.cpuInNext, Whole s m.block
  taken : ∀ m ∈ n.cpuIn, Whole s m.block
  known : ∀ b, L.view (n.agents b) ≠ ⟨.none, .nothing⟩ → Whole s b

theorem Wholesome.wired (L : AgentLaws F) (s : Settings) (l1 l2 : Config) :
    Wholesome L s ({ cpu := CoherenceAdapter.wire s l1 l2 } : CpuNode F adapterPort) where
  fits B lodges := absurd lodges (wire_empty s l1 l2 B)
  filling m mem := by cases (wire_idle s l1 l2).1.symm.trans mem
  asked m mem := by
    rw [(wire_idle s l1 l2).2] at mem
    cases mem
  next _ mem := by cases mem
  taken _ mem := by cases mem
  known b view := absurd L.view_initial view

theorem Wholesome.drain (whole : n.Wholesome L s) :
    (∀ m ∈ (CoherenceAdapter.drain n.cpu n.cpuInNext).1.outboundProc, Whole s m.block) ∧
      ∀ m ∈ (CoherenceAdapter.drain n.cpu n.cpuInNext).2, Whole s m.block := by
  unfold CoherenceAdapter.drain
  split
  · next m rest _ queue =>
      have first := whole.asked
      rw [queue] at first
      refine ⟨fun m' mem => first m' (List.mem_cons_of_mem _ mem), fun m' mem => ?_⟩
      cases mem
      exact first m List.mem_cons_self
  · exact ⟨whole.asked, whole.next⟩

/-- The port's tick. -/
theorem Wholesome.called (whole : n.Wholesome L s) (stacked : CoherenceAdapter.Stacked n.cpu) :
    (n.portStep (n.called s i)).Wholesome L s where
  fits := whole.fits.tick stacked whole.filling n.cpuInNext
  filling m mem := by
    have empty := CoherenceAdapter.tick_slot (s := s) (i := i) n.cpu n.cpuInNext
    cases empty.symm.trans mem
  asked m mem := by
    obtain ⟨out, -⟩ := whole.drain
    change m ∈ (CoherenceAdapter.tick s i n.cpu n.cpuInNext).state.outboundProc at mem
    unfold CoherenceAdapter.tick at mem
    simp only at mem
    split at mem
    · exact out m mem
    · unfold fill settle at mem
      simp only at mem
      rcases sink_asks mem with old | fresh
      · rw [fillL2_eq] at old
        exact out m old
      · exact fresh
  next m mem := by
    obtain ⟨-, slot⟩ := whole.drain
    change m ∈ (CoherenceAdapter.tick s i n.cpu n.cpuInNext).cpuInNext at mem
    unfold CoherenceAdapter.tick at mem
    simp only at mem
    split at mem <;> exact slot m mem
  taken := whole.taken
  known := whole.known

/-- An agent that acts for a whole block. -/
theorem Wholesome.apply (whole : n.Wholesome L s) {b : BlockId} (block : Whole s b)
    (a : AgentStep F.AgentState) : (n.apply s i b a).Wholesome L s where
  fits := by
    rw [CpuNode.apply_fields]
    exact whole.fits
  filling m mem := by
    rw [CpuNode.apply_fields] at mem
    simp only at mem
    split at mem
    · cases mem
      exact block
    · exact whole.filling m mem
  asked m mem := by
    rw [CpuNode.apply_fields] at mem
    exact whole.asked m mem
  next := whole.next
  taken := whole.taken
  known b' view := by
    by_cases eq : b' = b
    · exact eq ▸ block
    · apply whole.known b'
      simpa only [CpuNode.apply, Function.update_of_ne eq] using view

theorem Wholesome.tickProc (whole : n.Wholesome L s) (step : n.tickProc s i st = .ok (n', st')) :
    n'.Wholesome L s := by
  unfold CpuNode.tickProc at step
  split at step
  · cases step
    exact whole
  · next m arrived =>
      split at step
      · cases step
      · next a answer =>
          cases step
          have acted : (n.apply s i m.block a).Wholesome L s := whole.apply (whole.taken m arrived) a
          exact ⟨acted.fits, acted.filling, acted.asked, acted.next, (fun _ mem => by cases mem),
            acted.known⟩

/-- An agent has an answer to the directory only for a block it has to do with. -/
theorem heard {v : F.AgentState} {k : MessageKind} {a : AgentStep F.AgentState}
    (answer : F.processNtwkRequest v k = .ok a) : L.view v ≠ ⟨.none, .nothing⟩ := by
  intro idle
  rcases L.ntwk v k a answer with ⟨g, -, want, -⟩ | ⟨-, orders⟩
  · exact want (congrArg View.want idle)
  · rw [idle] at orders
    rcases orders with ⟨-, right, -⟩ | ⟨-, right | right, -⟩ | ⟨-, -, right, -⟩ |
      ⟨-, -, right | right, -⟩ <;> cases right

theorem Wholesome.tickNtwk (whole : n.Wholesome L s) (step : n.tickNtwk s i st = .ok (n', st')) :
    n'.Wholesome L s := by
  unfold CpuNode.tickNtwk at step
  split at step
  · cases step
    exact whole
  · next m arrived =>
      split at step
      · cases step
      · next a answer =>
          cases step
          have acted : (n.apply s i m.block a).Wholesome L s := whole.apply (whole.known _ (heard answer)) a
          obtain ⟨out, slot, -⟩ := onNtwkEvent_fields (s := s) (n.apply s i m.block a).cpu m
          refine ⟨fun B lodges => acted.fits B (Lodges.event m lodges), fun m' mem => ?_,
            fun m' mem => ?_, acted.next, acted.taken, acted.known⟩
          · exact acted.filling m' (slot ▸ mem)
          · apply acted.asked m'
            rw [← out]
            exact mem

theorem Wholesome.tick (whole : n.Wholesome L s) (stacked : CoherenceAdapter.Stacked n.cpu)
    (step : n.tick s i st = .ok (n', st')) : n'.Wholesome L s := by
  unfold CpuNode.tick at step
  simp only at step
  split at step
  · cases step
  · next proc => exact ((whole.called stacked).tickProc proc).tickNtwk step

theorem Wholesome.tock (whole : n.Wholesome L s) : n.tock.Wholesome L s where
  fits := whole.fits
  filling := whole.filling
  asked := whole.asked
  next _ mem := by cases mem
  taken m mem := by
    rcases Option.or_eq_some_iff.mp mem with next | ⟨-, old⟩
    · exact whole.next m next
    · exact whole.taken m old
  known := whole.known

theorem Wholesome.core (whole : n.Wholesome L s) (stacked : CoherenceAdapter.Stacked n.cpu)
    {event : CoreEvent} (bound : ∀ req, event = .issue req → req.addr < 2 ^ 64) :
    (n.portStep (CoherenceAdapter.core n.cpu s i n.cpuInNext event)).Wholesome L s where
  fits B lodges := whole.fits B (Lodges.core stacked bound lodges)
  filling m mem := whole.filling m ((core_slot (s := s) (i := i) n.cpu n.cpuInNext event) ▸ mem)
  asked m mem := by
    change m ∈ (CoherenceAdapter.core n.cpu s i n.cpuInNext event).state.outboundProc at mem
    cases event with
    | complete id | tick => exact whole.asked m mem
    | issue req =>
        rcases sink_asks mem with old | fresh
        · exact whole.asked m old
        · exact fresh
  next m mem := by
    cases event <;> exact whole.next m mem
  taken := whole.taken
  known := whole.known

end CpuNode

/-! ## Runs -/

/-- The addresses of a core's requests have 64 bits. -/
def WordSized : Action adapterPort → Prop
  | .external _ (.issue req) => req.addr < 2 ^ 64
  | _ => True

instance (a : Action adapterPort) : Decidable (WordSized a) :=
  match a with
  | .external _ (.issue req) => inferInstanceAs (Decidable (req.addr < 2 ^ 64))
  | .external _ (.complete _) | .external _ .tick | .tick _ | .tock _ | .deliver _ | .dirTick | .dirTock
  | .dirDeliver _ => isTrue trivial

theorem stacked_run (same : s.cacheMode = .privateL2 → l1.b = l2.b) {σ : System F adapterPort}
    (reached : (System.machine F adapterPort s).Reachable (fullMode F s l1 l2) σ) (i : NodeId) :
    CoherenceAdapter.Stacked (σ.cpus i).cpu := by
  have wired : CoherenceAdapter.Wired s l1 l2 (σ.cpus i).cpu :=
    (CoherenceAdapter.wired_kept s l1 l2).run (fun _ => ⟨rfl, rfl⟩) reached i
  exact wired.stacked same

theorem wholesome_run (L : AgentLaws F) (same : s.cacheMode = .privateL2 → l1.b = l2.b)
    {ok : System F adapterPort → Action adapterPort → Prop} (sized : ∀ σ a, ok σ a → WordSized a)
    {σ : System F adapterPort} (run : (System.machine F adapterPort s).Run ok (fullMode F s l1 l2) σ)
    (i : NodeId) : (σ.cpus i).Wholesome L s := by
  apply run.invariant_under (J := fun σ => CoherenceAdapter.Stacked (σ.cpus i).cpu)
    (I := fun σ => (σ.cpus i).Wholesome L s)
  · exact fun σ there => stacked_run same there.reachable i
  · exact CpuNode.Wholesome.wired L s l1 l2
  · intro σ a σ' stacked whole guarded step
    generalize eq : σ'.cpus i = n
    have moved : System.NodeStep s σ i a n := eq ▸ System.node_step step i
    cases moved with
    | idle => exact whole
    | tick ticked => exact whole.tick stacked ticked
    | tock => exact whole.tock
    | deliver m => exact ⟨whole.fits, whole.filling, whole.asked, whole.next, whole.taken, whole.known⟩
    | @external event p called =>
        cases called
        apply whole.core stacked
        rintro req rfl
        exact sized σ _ guarded

end Coherence
