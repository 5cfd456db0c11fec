import MulticoreSim.Coherence.FirstMiss
import MulticoreSim.Coherence.Stack

/-! # Where the DATA of a miss lands

A CPU address becomes a block number by the shift of each cache level and a byte
address by the shift of the messages, and comes back by that shift alone. The
filled block is the one the CPU asked for exactly where the three agree on it.
-/

namespace Coherence

open Memory

/-! ## The block that comes back -/

/-- The L1's block of the address survives the shift of the messages, and an L2 agrees on it. -/
def Tied (s : Settings) (l1 l2 : Config) (addr : Nat) : Prop :=
  addr >>> l1.b < 2 ^ (64 - s.blockSizeLog2) ∧
    (s.cacheMode = .privateL2 → addr >>> l1.b = addr >>> l2.b)

instance (s : Settings) (l1 l2 : Config) (addr : Nat) : Decidable (Tied s l1 l2 addr) := by
  unfold Tied
  infer_instance

/-- The request's L1 slot is ready, and the block of its address is resident in every level. -/
structure CoherenceAdapter.Landed (a : CoherenceAdapter) (addr id : Nat) : Prop where
  upper : a.l1d.blockIn addr = true
  lower : ∀ c ∈ a.l2d, c.blockIn addr = true
  awake : ∃ e, a.l1d.mshr.find id = some e ∧ e.ready = true

section

variable {s : Settings} {l1 l2 : Config} {addr : Nat} (bound : addr < 2 ^ 64)

/-- What comes back of a block number. -/
theorem toCacheBlock_back (s : Settings) (B : Nat) :
    toCacheBlock s (toByteBlock s B) = B % 2 ^ (64 - s.blockSizeLog2) :=
  shiftLeft64_shiftRight B s.blockSizeLog2

include bound

theorem missBlock_of_agree (agree : s.cacheMode = .privateL2 → addr >>> l1.b = addr >>> l2.b) :
    missBlock s l1 l2 addr = addr >>> l1.b := by
  unfold missBlock
  split
  · rfl
  · next mode =>
      by_cases eq : l1.b = l2.b
      · rw [← eq, shiftLeft64_shiftRight, Nat.mod_eq_of_lt (shiftRight_lt bound l1.b)]
      · have zero := shiftRight_agree (agree mode) eq
        rw [zero]
        simp [shiftLeft64]

/-- The block that comes back is the L1's exactly where it survives the shift. -/
theorem returns_iff (agree : s.cacheMode = .privateL2 → addr >>> l1.b = addr >>> l2.b) :
    missBlock s l1 l2 addr % 2 ^ (64 - s.blockSizeLog2) = addr >>> l1.b ↔
      addr >>> l1.b < 2 ^ (64 - s.blockSizeLog2) := by
  rw [missBlock_of_agree bound agree]
  refine ⟨fun same => ?_, Nat.mod_eq_of_lt⟩
  rw [← same]
  exact Nat.mod_lt _ (Nat.two_pow_pos _)

end

/-! ## Landing -/

namespace CoherenceAdapter

variable {a : CoherenceAdapter} {s : Settings} {i : NodeId} {l1 l2 : Config}

theorem Wired.lower_cfg (wired : a.Wired s l1 l2) {c : Cache} (mem : c ∈ a.l2d) :
    c.cfg = { l2 with coherenceSink := true } ∧ s.cacheMode = .privateL2 := by
  have lower := wired.lower
  rw [Option.mem_def.mp mem, Option.map_some, wire] at lower
  split at lower
  · cases lower
  · next mode => exact ⟨Option.some.inj lower, mode⟩

/-- A read that misses in every level asks for `missBlock`. -/
theorem Wired.asks (wired : a.Wired s l1 l2) {req : MemReq} (read : req.op.isWrite = false)
    (upper : a.l1d.blockIn req.addr = false)
    (lower : ∀ c ∈ a.l2d, c.blockIn (shiftLeft64 (req.addr >>> l1.b) l1.b) = false) :
    ∃ op, (a.l1d.access (β := .cache) a.l2d req).1.calls = [.onMiss (missBlock s l1 l2 req.addr) op] := by
  obtain ⟨c', op, cfg, same⟩ := Cache.missing_fetches (β := .cache) a.l2d read upper
  have shift : c'.cfg.b = l1.b := by rw [cfg, wired.upper_shift]
  rw [same]
  cases below : a.l2d with
  | none =>
      have wires := wired.lower
      rw [below] at wires
      cases mode : s.cacheMode with
      | privateL2 => simp [wire, mode] at wires
      | sharedLls =>
          have sink : c'.cfg.coherenceSink = true := by
            rw [cfg, wired.upper]
            simp [wire, mode, Cache.build]
          refine ⟨req.originatingOp, ?_⟩
          simp [Cache.fetch, Below.cache, sink, missBlock, mode, Cache.getBlockAddr, shift]
  | some l2d =>
      obtain ⟨cfg2, mode⟩ := wired.lower_cfg (c := l2d) below
      let down : MemReq :=
        { addr := shiftLeft64 (req.addr >>> l1.b) l1.b, pc := req.pc, originatingOp := op, tid := req.tid }
      obtain ⟨calls, suspended⟩ : (l2d.access (β := .nothing) () down).1.calls = _ ∧
          (l2d.access (β := .nothing) () down).2.latency = _ :=
        Cache.missing_asks (by rw [cfg2]) rfl (lower l2d below)
      simp only [down] at calls suspended
      refine ⟨op, ?_⟩
      simp [Cache.fetch, Below.cache, Cache.getBlockAddr, shift, calls, suspended, missBlock, mode, cfg2]

/-- An L2 with a sink holds the block. -/
def HeldBelow (B : Nat) (c : Option Cache) : Prop :=
  ∀ l2 ∈ c, l2.cfg.coherenceSink = true ∧ l2.isInCache B = true

/-- What the L2 holds, it holds after any access of the L1. -/
theorem HeldBelow.access {B : Nat} {c : Option Cache} {req : MemReq} {y} (here : HeldBelow B c)
    (answer : Below.cache.access c req = some y) : HeldBelow B y.1 := by
  cases c with
  | none => cases answer
  | some l2 =>
      cases answer
      obtain ⟨sink, resident⟩ := here l2 rfl
      rintro _ ⟨⟩
      exact ⟨(congrArg Config.coherenceSink (Cache.access_same (β := .nothing) l2 () req).cfg).trans sink,
        Cache.resident_access sink resident req⟩

/-- The DATA of a miss wakes the request up and leaves its block in every level, where the
    levels agree on the block. -/
theorem Wired.lands (wired : a.Wired s l1 l2) {addr id : Nat} (bound : addr < 2 ^ 64)
    (tied : Tied s l1 l2 addr) {m : Message} (asked : m.block = toByteBlock s (missBlock s l1 l2 addr))
    {e : MSHREntry} (found : a.l1d.mshr.find id = some e) (block : e.blockAddr = addr >>> l1.b) :
    (a.fill s i m).1.Landed addr id := by
  obtain ⟨upper, lower⟩ := fill_caches (a := a) (s := s) (i := i) m
  have back : toCacheBlock s m.block = addr >>> l1.b := by
    rw [asked, toCacheBlock_back]
    exact (returns_iff bound tied.2).mpr tied.1
  rw [back] at upper lower
  have still : (a.fill s i m).1.Wired s l1 l2 := wired.fill m
  refine ⟨?_, ?_, ?_⟩
  · rw [Cache.blockIn, Cache.getBlockAddr, still.upper_shift, upper]
    apply Cache.resident_fill
    rw [wired.upper_shift]
    exact shiftRight_lt bound l1.b
  · have base : HeldBelow (addr >>> l1.b) (a.filledL2 (addr >>> l1.b)) := by
      intro c mem
      obtain ⟨l2d, here, rfl⟩ := Option.mem_map.mp mem
      obtain ⟨cfg, mode⟩ := wired.lower_cfg here
      have same : (l2d.fill (β := .nothing) () (addr >>> l1.b) false).cache.cfg = l2d.cfg :=
        (Cache.fill_same false).cfg
      refine ⟨by rw [same, cfg], ?_⟩
      apply Cache.resident_fill
      rw [cfg, tied.2 mode]
      exact shiftRight_lt bound l2.b
    have kept := Cache.fill_below (c := a.l1d) (β := .cache) (P := HeldBelow (addr >>> l1.b))
      (fun c req y here answer => here.access answer) base (addr >>> l1.b) (a.pendingStores m.block)
    intro c mem
    obtain ⟨cfg, mode⟩ := still.lower_cfg mem
    rw [Cache.blockIn, Cache.getBlockAddr, cfg, ← tied.2 mode]
    rw [lower] at mem
    obtain ⟨l2d, here, rfl⟩ := Option.mem_map.mp mem
    exact (kept l2d here).2
  · rw [upper, ← block]
    apply MSHR.find_markBlockReady
    have same : (a.l1d.fill (β := .cache) (a.filledL2 e.blockAddr) e.blockAddr
        (a.pendingStores m.block)).cache.mshr = a.l1d.mshr := (Cache.fill_same _).mshr
    rw [same]
    exact found

/-- Where they do not, the DATA of a first miss leaves its request asleep, or its block out of
    the L2. -/
theorem Missed.astray {addr : Nat} (missed : a.Missed s l1 l2 addr) (wired : a.Wired s l1 l2)
    (bound : addr < 2 ^ 64) (untied : ¬ Tied s l1 l2 addr) {m : Message}
    (asked : m.block = toByteBlock s (missBlock s l1 l2 addr)) : ¬ (a.fill s i m).1.Landed addr 1 := by
  intro landed
  obtain ⟨e, rest, table, holds, block, -, asleep, free⟩ := missed.table
  obtain ⟨upper, lower⟩ := fill_caches (a := a) (s := s) (i := i) m
  have back : toCacheBlock s m.block = missBlock s l1 l2 addr % 2 ^ (64 - s.blockSizeLog2) := by
    rw [asked, toCacheBlock_back]
  generalize toCacheBlock s m.block = B at upper lower back
  -- The request has been woken up, so the L1's own block has come back.
  have own : addr >>> l1.b = B := by
    by_contra other
    have untouched : a.l1d.mshr.markBlockReady B = a.l1d.mshr := by
      apply MSHR.markBlockReady_other
      intro e' mem
      rw [table] at mem
      rcases List.mem_cons.mp mem with rfl | mem
      · simp [MSHREntry.targets, block, other]
      · simp [MSHREntry.targets, free e' mem]
    have same : (a.l1d.fill (β := .cache) (a.filledL2 B) B (a.pendingStores m.block)).cache.mshr =
        a.l1d.mshr := (Cache.fill_same _).mshr
    obtain ⟨e', found, ready⟩ := landed.awake
    rw [upper, Cache.markBlockReady, same, untouched, MSHR.find_first table holds] at found
    cases found
    cases asleep.symm.trans ready
  -- The L2 holds nothing else, so it agrees on the block.
  have agree : s.cacheMode = .privateL2 → addr >>> l1.b = addr >>> l2.b := by
    intro mode
    obtain ⟨c, mem⟩ : ∃ c, c ∈ a.l2d := by
      have lower := wired.lower
      simp only [wire, mode, Option.map_some] at lower
      obtain ⟨c, here, -⟩ := Option.map_eq_some_iff.mp lower
      exact ⟨c, here⟩
    obtain ⟨cfg, -⟩ := wired.lower_cfg mem
    have below := (Cache.fill_empty (β := .cache) missed.rows (a.filledL2 B) B
      (a.pendingStores m.block)).2
    have resident := landed.lower ((c.fill (β := .nothing) () B false).cache.markBlockReady B) (by
      rw [lower, below, filledL2, mem]
      rfl)
    have same : (c.fill (β := .nothing) () B false).cache.cfg = c.cfg := (Cache.fill_same false).cfg
    have only := (Cache.fill_empty (β := .nothing) (missed.below c mem) () B false).1 (addr >>> l2.b)
    rw [Cache.blockIn, Cache.getBlockAddr] at resident
    rw [own]
    refine (only ?_).symm
    rw [← show (c.fill (β := .nothing) () B false).cache.cfg.b = l2.b by rw [same, cfg]]
    exact resident
  exact untied ⟨(returns_iff bound agree).mp (back.symm.trans own.symm), agree⟩

end CoherenceAdapter

/-! ## Every run -/

/-- Whenever core `i` is about to consume the DATA of a request suspended on a miss on the
    address, the request is woken up and its block is resident in every level. -/
def FillLands (s : Settings) (l1 l2 : Config) (addr : Nat) {F : ProtocolFsm} (σ : System F adapterPort)
    (i : NodeId) : Prop :=
  ∀ (m : Message) (id : Nat) (e : MSHREntry),
    CoherenceAdapter.cacheInNext (σ.cpus i).cpu = some m →
    m.block = toByteBlock s (missBlock s l1 l2 addr) →
    (CoherenceAdapter.l1d (σ.cpus i).cpu).mshr.find id = some e →
    e.blockAddr = addr >>> l1.b → e.dueCycle = Cache.never →
    CoherenceAdapter.Landed
      (adapterPort.tick s i (σ.cpus i).cpu (σ.cpus i).cpuInNext).state addr id

section

variable {s : Settings} {l1 l2 : Config} {addr : Nat}

/-- A core's first miss on an address whose block the levels do not agree on. -/
theorem first_miss_astray (bound : addr < 2 ^ 64) (untied : ¬ Tied s l1 l2 addr)
    (room : 0 < l1.mshrEntries) {i : NodeId} (core : i < s.numProcs) :
    ∃ σ, (System.machine s.protocol.fsm adapterPort s).Reachable (fullMode s.protocol.fsm s l1 l2) σ ∧
      ¬ FillLands s l1 l2 addr σ i := by
  obtain ⟨σ, a, reached, slot, missed, empty, cpu⟩ := fullMode_answered s l1 l2 room core addr
  refine ⟨σ, reached, fun lands => ?_⟩
  obtain ⟨e, rest, table, holds, block, due, -, -⟩ := missed.table
  have wired := (CoherenceAdapter.wired_kept s l1 l2).run (fun _ => ⟨rfl, rfl⟩) reached i
  rw [cpu] at wired
  let m := Message.make i i (toByteBlock s (missBlock s l1 l2 addr)) .data s
  have filled : (adapterPort.tick s i (σ.cpus i).cpu (σ.cpus i).cpuInNext).state = (a.fill s i m).1 := by
    rw [cpu, slot]
    exact CoherenceAdapter.tick_filled empty m
  have found : a.l1d.mshr.find 1 = some e := MSHR.find_first table holds
  have landed := lands m 1 e (by rw [cpu]) rfl (by rw [cpu]; exact found) block due
  rw [filled] at landed
  exact missed.astray ⟨wired.upper, wired.lower⟩ bound untied rfl landed

/-- Every DATA lands in every run exactly where the levels agree on the block, but for cores
    that can issue nothing and for no cores at all. -/
theorem fills_land (s : Settings) (l1 l2 : Config) (addr : UInt64) :
    (∀ σ, (System.machine s.protocol.fsm adapterPort s).Reachable
        (fullMode s.protocol.fsm s l1 l2) σ → ∀ i < s.numProcs, FillLands s l1 l2 addr.toNat σ i) ↔
      Tied s l1 l2 addr.toNat ∨ l1.mshrEntries = 0 ∨ s.numProcs = 0 := by
  refine ⟨fun all => ?_, fun fine σ reached i core m id e arrived asked found block _ => ?_⟩
  · by_contra bad
    simp only [not_or] at bad
    obtain ⟨untied, room, cores⟩ := bad
    obtain ⟨σ, reached, astray⟩ := first_miss_astray addr.toNat_lt untied
      (Nat.pos_of_ne_zero room) (Nat.pos_of_ne_zero cores)
    exact astray (all σ reached 0 (Nat.pos_of_ne_zero cores))
  · have wired := (CoherenceAdapter.wired_kept s l1 l2).run (fun _ => ⟨rfl, rfl⟩) reached i
    rcases fine with tied | none | none
    · have filled : (adapterPort.tick s i (σ.cpus i).cpu (σ.cpus i).cpuInNext).state =
          ((CoherenceAdapter.drain (σ.cpus i).cpu (σ.cpus i).cpuInNext).1.fill s i m).1 :=
        CoherenceAdapter.tick_fills arrived
      obtain ⟨upper, lower, -⟩ := CoherenceAdapter.drain_fields (a := (σ.cpus i).cpu) (σ.cpus i).cpuInNext
      rw [filled]
      exact CoherenceAdapter.Wired.lands ⟨by rw [upper]; exact wired.upper, by rw [lower]; exact wired.lower⟩
        addr.toNat_lt tied asked (by rw [upper]; exact found) block
    · have table := ((fullMode_dormant none reached).cpus i).cpu.slots
      rw [MSHR.find, table] at found
      cases found
    · rw [none] at core
      cases core

end

/-- A private L2 with lines twice as long as the L1's. -/
theorem long_lines_astray :
    let s : Settings := { protocol := .MESI, numProcs := 1 }
    ¬ ∀ σ, (System.machine mesi adapterPort s).Reachable (fullMode mesi s {} { b := 7 }) σ →
      ∀ i < 1, FillLands s {} { b := 7 } 128 σ i := by
  intro s all
  have astray : ∃ σ, (System.machine mesi adapterPort s).Reachable (fullMode mesi s {} { b := 7 }) σ ∧
      ¬ FillLands s {} { b := 7 } 128 σ 0 :=
    first_miss_astray (s := s) (by decide) (by decide) (by decide) (by decide)
  obtain ⟨σ, reached, astray⟩ := astray
  exact astray (all σ reached 0 (by decide))

end Coherence
