import MulticoreSim.Library.Dataflow
import MulticoreSim.Ooo.Stages

/-! # What a core computes

The simulator times instructions and computes nothing. Given what the instructions do,
a datapath follows the history of a core: dispatch names the results an instruction
reads, a writeback computes one, retirement commits it. The registers and the memory
are those of executing the instructions one after the other.
-/

namespace Ooo

inductive Operand where
  | src1 | src2
  deriving DecidableEq, Repr

def Inst.source (inst : Inst) : Operand → Option Reg
  | .src1 => inst.src1
  | .src2 => inst.src2

def SchedEntry.operand (e : SchedEntry) : Operand → SrcOperand
  | .src1 => e.src1
  | .src2 => e.src2

/-- What instructions do with values and a memory. -/
structure Interpretation (ν μ : Type) where
  result : Inst → (Operand → Option ν) → μ → ν
  store : Inst → (Operand → Option ν) → μ → μ
  /-- Only loads and stores look at the memory. -/
  blind : ∀ inst args m m', inst.opcode.isMem = false → result inst args m = result inst args m'
  /-- Only stores change it. -/
  quiet : ∀ inst args m, inst.opcode ≠ .store → store inst args m = m

namespace Interpretation

variable {ν μ : Type} (I : Interpretation ν μ)

def meaning : Dataflow.Meaning Inst Reg Operand ν μ where
  dest := Inst.dest
  source := Inst.source
  result := I.result
  store := I.store
  touches inst := inst.opcode.isMem
  writes inst := inst.opcode = .store
  blind := I.blind
  quiet inst args m other := I.quiet inst args m (by simpa using other)
  writer_touches inst store := by
    have store : inst.opcode = .store := by simpa using store
    simp [store, Opcode.isMem]

/-- One instruction after the other. -/
def sequential (start : Dataflow.State Reg ν μ) (insts : List Inst) : Dataflow.State Reg ν μ :=
  I.meaning.sequential start insts

end Interpretation

/-- The tag that a register has before anything writes it. -/
def home (reg : Reg) : Nat := reg.val + 1

/-- The values in a core, by the tags of its alias table. -/
structure Datapath (ν μ : Type) where
  rename : Reg → Nat
  /-- By the tag of the instruction that reads. -/
  operands : Nat → Operand → Option Nat
  /-- By the dynamic count. -/
  tags : Nat → Nat
  flow : Dataflow.Flow ν μ
  /-- What has been committed. -/
  regs : Reg → ν

namespace Datapath

variable {ν μ : Type}

def reset (start : Dataflow.State Reg ν μ) : Datapath ν μ where
  rename := home
  operands _ _ := none
  tags _ := 0
  flow := { file := fun t => start.regs (Fin.ofNat 256 (t - 1)), mem := start.mem }
  regs := start.regs

def dispatch (d : Datapath ν μ) (inst : Inst) (tag : Nat) : Datapath ν μ :=
  { d with
    rename := match inst.dest with
      | none => d.rename
      | some reg => Function.update d.rename reg tag
    operands := Function.update d.operands tag fun k => (inst.source k).map d.rename
    tags := Function.update d.tags inst.dynCount tag }

def step (I : Interpretation ν μ) (d : Datapath ν μ) : Event → Datapath ν μ
  | .dispatched inst tag => d.dispatch inst tag
  | .wroteBack inst =>
      let tag := d.tags inst.dynCount
      { d with flow := I.meaning.finish d.flow inst tag (d.operands tag) }
  | .retired inst tag => { d with regs := I.meaning.commit d.regs inst (d.flow.file tag) }
  | .fetched .. | .called _ | .fired .. => d

end Datapath

section

variable {ν μ : Type} (I : Interpretation ν μ) (start : Dataflow.State Reg ν μ)

/-- The datapath after a history. -/
def Interpretation.datapath (log : List Event) : Datapath ν μ := log.foldl (Datapath.step I) (.reset start)

@[simp] theorem datapath_snoc (log : List Event) (event : Event) :
    I.datapath start (log ++ [event]) = (I.datapath start log).step I event := by
  simp [Interpretation.datapath]

end

open Renaming Pipeline

variable {ν μ : Type} {I : Interpretation ν μ} {start : Dataflow.State Reg ν μ} {p p' : Pipeline}

/-! ## The datapath and the pipeline -/

/-- The datapath of a pipeline's history holds the values of program order under the
    tags that the pipeline's table and queue name. -/
structure Computes (I : Interpretation ν μ) (start : Dataflow.State Reg ν μ) (p : Pipeline) : Prop where
  fresh : 257 ≤ p.rat.nextTag
  awake : ∀ s ∈ p.sq, s.busy = true → ∀ k, (s.operand k).ready = true
  table : ∀ reg, (p.rat.entries reg).tag = (I.datapath start p.log).rename reg
  unwritten : ∀ reg, writerBelow Inst.dest (Log.dispatched p.log) p.rat.nextTag reg = none →
    (p.rat.entries reg).tag = home reg
  tags : ∀ d ∈ Log.dispatched p.log, (I.datapath start p.log).tags d.1.dynCount = d.2
  operands : ∀ s ∈ p.sq, ∀ k, (I.datapath start p.log).operands s.destTag k =
    (s.inst.source k).map fun _ => (s.operand k).tag
  homes : ∀ s ∈ p.sq, ∀ k reg, s.inst.source k = some reg →
    writerBelow Inst.dest (Log.dispatched p.log) s.destTag reg = none → (s.operand k).tag = home reg
  agrees : I.meaning.Agrees home start (Log.dispatched p.log) p.Waits (I.datapath start p.log).flow
  regs : (I.datapath start p.log).regs = (I.sequential start ((Log.retired p.log).map (·.1))).regs

namespace Computes

theorem reset (cfg : OooConfig) (S : Surroundings) (outside : S.State) (tid : Nat) :
    Computes I start (Core.make cfg outside tid : Core S).pipe where
  fresh := Nat.le_refl _
  awake _ mem := by cases mem
  table _ := rfl
  unwritten _ _ := rfl
  tags _ mem := by cases mem
  operands _ mem := by cases mem
  homes _ mem := by cases mem
  agrees := by
    refine .empty _ _ _ (fun reg => ?_) rfl
    have same : Fin.ofNat 256 (home reg - 1) = reg := by simp [home]
    exact congrArg start.regs same
  regs := rfl

/-- A step that dispatches nothing, finishes nothing and commits nothing. -/
theorem of_same (computes : Computes I start p) (rat : p'.rat = p.rat) (sq : p'.sq = p.sq)
    (dispatched : Log.dispatched p'.log = Log.dispatched p.log)
    (retired : Log.retired p'.log = Log.retired p.log)
    (path : I.datapath start p'.log = I.datapath start p.log) : Computes I start p' := by
  have waits : p'.Waits = p.Waits := by
    funext x
    simp only [Waits, sq]
  obtain ⟨fresh, awake, table, unwritten, tags, operands, homes, agrees, regs⟩ := computes
  constructor
  all_goals simp only [rat, sq, dispatched, retired, path, waits]
  exacts [fresh, awake, table, unwritten, tags, operands, homes, agrees, regs]

/-- The head of the buffer has its result. -/
theorem head_done (sound : p.Sound) (held : p.rob.count ≠ 0) (ready : p.rob.headEntry.ready = true) :
    ¬p.Waits p.rob.headEntry.destTag := by
  rintro ⟨s, mem, tag⟩
  obtain ⟨k, entry, at_k, key, unready, -⟩ := sound.linked.slots s mem
  have same : entry.destTag = p.rob.headEntry.destTag := (congrArg Prod.snd key).trans tag
  have inside := List.mem_of_getElem? at_k
  have first : p.rob.headEntry ∈ p.rob.toList := by
    rw [sound.order.rob_head held]
    exact List.mem_cons_self
  rw [List.inj_on_of_nodup_map (sound.linked.tags_nodup sound.order) inside first same, ready] at unready
  cases unready

/-- A retirement commits a value of program order. -/
theorem retire (computes : Computes I start p) (sound : p.Sound) (held : p.rob.count ≠ 0)
    (ready : p.rob.headEntry.ready = true) {rat : Rat} {inMispred : Bool}
    (nextTag : rat.nextTag = p.rat.nextTag) (entries : ∀ reg, (rat.entries reg).tag = (p.rat.entries reg).tag) :
    Computes I start { p with
      rat, inMispred
      rob := p.rob.pop
      retiredCount := p.retiredCount + 1
      log := p.log ++ [.retired p.rob.headEntry.inst p.rob.headEntry.destTag] } := by
  have agrees := computes.agrees
  have regs := computes.regs
  have dispatched := sound.order.head_retires held
  rw [List.append_assoc, List.singleton_append] at dispatched
  constructor
  all_goals simp only [datapath_snoc, Datapath.step, Log.dispatched_snoc, Log.retired_snoc, List.append_nil,
    nextTag, entries]
  · exact computes.fresh
  · exact computes.awake
  · exact computes.table
  · exact computes.unwritten
  · exact computes.tags
  · exact computes.operands
  · exact computes.homes
  · exact agrees
  · rw [dispatched] at agrees
    have committed := agrees.commit (head_done sound held ready)
    rw [regs, List.map_append]
    exact committed

/-- The operands of an entry in a unit name results that are there. -/
theorem names (computes : Computes I start p) (sound : p.Sound) {sched : SchedEntry} (mem : sched ∈ p.sq)
    (busy : sched.busy = true) : I.meaning.Names home (Log.dispatched p.log) p.Waits sched.inst
      sched.destTag ((I.datapath start p.log).operands sched.destTag) := by
  have reads : ∀ k, p.ReadsBelow sched.destTag (sched.inst.source k) (sched.operand k).tag true := by
    intro k
    obtain ⟨first, second⟩ := sound.renamed.operands sched mem
    rw [← computes.awake sched mem busy k]
    cases k
    · exact first
    · exact second
  refine ⟨fun k source => ?_, fun k r source last => ?_, fun k r w source last => ?_⟩
  all_goals
    have source : sched.inst.source k = _ := source
    rw [computes.operands sched mem k, source]
  · rfl
  · exact congrArg some (computes.homes sched mem k r source last)
  · have reads := reads k
    rw [source] at reads
    have finished := reads.finished last
    have last : writerBelow Inst.dest (Log.dispatched p.log) sched.destTag r = some w := last
    simp only [ReadsBelow, Reads, Option.bind_some, last] at reads
    exact ⟨congrArg some reads.1, finished⟩

/-- A writeback computes a value of program order. -/
theorem writeback (computes : Computes I start p) (sound : p.Sound) (points : p.Held)
    (clear : ∀ e ∈ p.sq, e.Issued → ambiguous p.sq e = false) {tag : Nat} {sched : SchedEntry}
    {pointers : Multiset Nat} (found : entryOf p.sq tag = some sched) (held : p.pointers = {tag} + pointers) :
    Computes I start { p with
      rat := p.rat.markComplete sched.inst.dest sched.destTag
      rob := p.rob.modify sched.robIdx fun entry => { entry with ready := true }
      sq := eraseByTag (wakeDependents p.sq sched.destTag) sched.destTag
      pointers
      log := p.log ++ [.wroteBack sched.inst] } := by
  obtain ⟨mem, same⟩ := entryOf_spec found
  have nodup := sound.linked.queue_nodup sound.order
  have here : sched.key ∈ Log.dispatched p.log := sound.linked.dispatched sound.order mem
  have busy : sched.busy = true := by
    have inside : tag ∈ p.pointers := by
      rw [held]
      exact Multiset.mem_add.mpr (.inl (Multiset.mem_singleton_self _))
    rw [points, Multiset.mem_coe] at inside
    obtain ⟨e, listed, equal⟩ := List.mem_map.mp inside
    obtain ⟨queued, busy⟩ := List.mem_filter.mp listed
    rwa [unique_tag nodup queued mem (equal.trans same.symm)] at busy
  -- What conflicts with the entry and was dispatched before it waits no longer.
  have conflicts : ∀ d ∈ Log.dispatched p.log, d.2 < sched.destTag → sched.inst.opcode.isMem = true →
      Conflict d.1 sched.inst → ¬p.Waits d.2 := by
    rintro d dispatched less isMem conflict ⟨o, queued, equal⟩
    have key : o.key = d := sound.linked.tag_unique (sound.linked.dispatched sound.order queued) dispatched
      equal
    have older := (sound.linked.older_iff sound.order dispatched here).mpr less
    rw [← key] at older conflict
    exact ambiguous_eq_false.mp (clear sched mem ⟨busy, isMem⟩) o queued older conflict
  have tag : (I.datapath start p.log).tags sched.inst.dynCount = sched.destTag := computes.tags _ here
  have entries : ∀ reg, ((p.rat.markComplete sched.inst.dest sched.destTag).entries reg).tag =
      (p.rat.entries reg).tag := by
    intro reg
    by_cases writes : sched.inst.dest = some reg
    · rw [Rat.markComplete_self _ _ _ _ writes]
    · rw [Rat.markComplete_other _ _ _ _ writes]
  have woken : ∀ (s : SchedEntry) k, ((s.wake sched.destTag).operand k).tag = (s.operand k).tag ∧
      ((s.operand k).ready = true → ((s.wake sched.destTag).operand k).ready = true) := by
    intro s k
    cases k <;> simp +contextual [SchedEntry.operand, SchedEntry.wake]
  constructor
  all_goals simp only [datapath_snoc, Datapath.step, Log.dispatched_snoc, Log.retired_snoc, List.append_nil,
    entries, tag, Rat.markComplete_nextTag]
  · exact computes.fresh
  · intro s' mem' busy' k
    obtain ⟨s, inside, -, rfl⟩ := (mem_broadcast nodup).mp mem'
    exact (woken s k).2 (computes.awake s inside busy' k)
  · exact computes.table
  · exact computes.unwritten
  · exact computes.tags
  · intro s' mem' k
    obtain ⟨s, inside, -, rfl⟩ := (mem_broadcast nodup).mp mem'
    rw [wake_destTag, wake_inst, (woken s k).1]
    exact computes.operands s inside k
  · intro s' mem' k reg
    obtain ⟨s, inside, -, rfl⟩ := (mem_broadcast nodup).mp mem'
    rw [wake_destTag, wake_inst, (woken s k).1]
    exact computes.homes s inside k reg
  · refine computes.agrees.finish here ⟨sched, mem, rfl⟩ (computes.names sound mem busy) ?_ ?_
      fun x => waits_broadcast nodup
    · intro isMem d dispatched less store
      have store : d.1.opcode = .store := by simpa [Interpretation.meaning] using store
      exact conflicts d dispatched less isMem (conflict_of_store (by simp [store, Opcode.isMem]) (.inl store))
    · intro store d dispatched less isMem
      have store : sched.inst.opcode = .store := by simpa [Interpretation.meaning] using store
      exact conflicts d dispatched less (by simp [store, Opcode.isMem]) (conflict_of_store isMem (.inr store))
  · exact computes.regs

/-- A new instruction names what its sources will hold. -/
theorem dispatch (computes : Computes I start p) (sound : p.Sound) {inst : Inst} {rest : List Inst}
    (next : p.dispq = inst :: rest) : Computes I start { p with
      dispq := rest
      rat := { p.rat with nextTag := p.rat.nextTag + 1 }.writeUse inst.dest p.rat.nextTag
      rob := p.rob.push { destReg := inst.dest, destTag := p.rat.nextTag, inst }
      sq := p.sq ++ [{ inst, destTag := p.rat.nextTag
                       src1 := { tag := (p.rat.read inst.src1).tag, ready := (p.rat.read inst.src1).ready }
                       src2 := { tag := (p.rat.read inst.src2).tag, ready := (p.rat.read inst.src2).ready }
                       robIdx := p.rob.tail }]
      log := p.log ++ [.dispatched inst p.rat.nextTag] } := by
  have below := sound.linked.fresh
  have waiting : ∀ (entry : SchedEntry) (x : Nat), entry.destTag = p.rat.nextTag →
      ((∃ s ∈ p.sq ++ [entry], s.destTag = x) ↔ p.Waits x ∨ x = p.rat.nextTag) := by
    intro entry x tag
    simp [Waits, or_and_right, exists_or, tag, eq_comm]
  have earlier : ∀ s ∈ p.sq, s.destTag < p.rat.nextTag := fun s mem =>
    below s.key (sound.linked.dispatched sound.order mem)
  -- The new instruction has a number of its own.
  have number : ∀ d ∈ Log.dispatched p.log, d.1.dynCount ≠ inst.dynCount := by
    intro d mem
    have increasing := sound.order.fetched_increasing
    rw [sound.order.fetched, next] at increasing
    exact Nat.ne_of_lt ((List.pairwise_append.mp increasing).2.2 d.1
      (List.mem_map_of_mem (f := Prod.fst) mem) inst List.mem_cons_self)
  constructor
  all_goals simp only [datapath_snoc, Datapath.step, Datapath.dispatch, Log.dispatched_snoc,
    Log.retired_snoc, List.append_nil, Rat.writeUse_nextTag]
  · exact Nat.le_succ_of_le computes.fresh
  · intro s mem busy k
    rcases List.mem_append.mp mem with old | new
    · exact computes.awake s old busy k
    · rw [List.mem_singleton.mp new] at busy
      cases busy
  · intro reg
    by_cases writes : inst.dest = some reg
    · rw [Rat.writeUse_self _ _ _ _ writes]
      simp [writes]
    · rw [Rat.writeUse_other _ _ _ _ writes, computes.table]
      cases dest : inst.dest with
      | none => rfl
      | some r =>
          refine (Function.update_of_ne ?_ ..).symm
          rintro rfl
          exact writes dest
  · intro reg none
    by_cases writes : inst.dest = some reg
    · cases (writerBelow_self writes).symm.trans none
    · rw [(writerBelow_other writes :
          writerBelow Inst.dest (Log.dispatched p.log ++ [(inst, p.rat.nextTag)]) _ reg = _),
        ← writerBelow_beyond below fun d mem => Nat.lt_succ_of_lt (below d mem)] at none
      rw [Rat.writeUse_other _ _ _ _ writes]
      exact computes.unwritten reg none
  · intro d mem
    rcases List.mem_append.mp mem with old | new
    · rw [Function.update_of_ne (number d old)]
      exact computes.tags d old
    · rw [List.mem_singleton.mp new]
      exact Function.update_self ..
  · intro s mem k
    rcases List.mem_append.mp mem with old | new
    · rw [Function.update_of_ne (Nat.ne_of_lt (earlier s old))]
      exact computes.operands s old k
    · rw [List.mem_singleton.mp new, Function.update_self]
      cases k
      · cases source : inst.src1 with
        | none => simp [Inst.source, source]
        | some r => simp [Inst.source, SchedEntry.operand, source, Rat.read, computes.table]
      · cases source : inst.src2 with
        | none => simp [Inst.source, source]
        | some r => simp [Inst.source, SchedEntry.operand, source, Rat.read, computes.table]
  · intro s mem k reg source none
    rcases List.mem_append.mp mem with old | new
    · rw [writerBelow_later (Nat.le_of_lt (earlier s old))] at none
      exact computes.homes s old k reg source none
    · rw [List.mem_singleton.mp new] at source none ⊢
      rw [writerBelow_later (Nat.le_refl _)] at none
      have home := computes.unwritten reg none
      cases k
      · have source : inst.src1 = some reg := source
        simpa [SchedEntry.operand, source, Rat.read] using home
      · have source : inst.src2 = some reg := source
        simpa [SchedEntry.operand, source, Rat.read] using home
  · refine computes.agrees.dispatch below (fun reg => ?_) fun x => waiting _ x rfl
    have bound := reg.isLt
    have fresh := computes.fresh
    unfold home
    omega
  · exact computes.regs

theorem step {S : Surroundings} {c : Core S} (steady : c.Steady) (computes : Computes I start c.pipe)
    (step : Pipeline.Step c.pipe p') : Computes I start p' := by
  have sound := steady.sound
  cases step with
  | retire held ready => exact computes.retire sound held ready rfl fun _ => rfl
  | flush held ready => exact computes.retire sound held ready rfl fun _ => rfl
  | writeback found held => exact computes.writeback sound steady.held steady.loadStore.clear found held
  | @fire oldest mem canFire =>
      have nodup := steady.nodup
      have ready : ∀ k, (oldest.operand k).ready = true := by
        simp only [SchedEntry.canFire, Bool.and_eq_true] at canFire
        intro k
        cases k
        · exact canFire.1.2
        · exact canFire.2
      have waits : ∀ x, _ ↔ c.pipe.Waits x := fun x => waits_markBusy (t := oldest.destTag)
      have from_ : ∀ s' ∈ markBusy c.pipe.sq oldest.destTag, ∃ s ∈ c.pipe.sq, s'.inst = s.inst ∧
          s'.destTag = s.destTag ∧ ∀ k, s'.operand k = s.operand k := by
        intro s' mem'
        rcases Memory.mem_modifyFirst mem' with old | ⟨s, inside, -, rfl⟩
        · exact ⟨s', old, rfl, rfl, fun _ => rfl⟩
        · exact ⟨s, inside, rfl, rfl, fun k => by cases k <;> rfl⟩
      constructor
      all_goals simp only [datapath_snoc, Datapath.step, Log.dispatched_snoc, Log.retired_snoc,
        List.append_nil]
      · exact computes.fresh
      · intro s' mem' busy k
        rcases LoadStore.mem_markBusy nodup mem mem' with old | rfl
        · exact computes.awake s' old busy k
        · have same : SchedEntry.operand { oldest with busy := true } k = oldest.operand k := by
            cases k <;> rfl
          rw [same]
          exact ready k
      · exact computes.table
      · exact computes.unwritten
      · exact computes.tags
      · intro s' mem' k
        obtain ⟨s, inside, inst, tag, same⟩ := from_ s' mem'
        rw [tag, inst, same]
        exact computes.operands s inside k
      · intro s' mem' k reg
        obtain ⟨s, inside, inst, tag, same⟩ := from_ s' mem'
        rw [tag, inst, same]
        exact computes.homes s inside k reg
      · have agrees := computes.agrees
        rwa [← funext fun x => propext (waits x)] at agrees
      · exact computes.regs
  | dispatch next => exact computes.dispatch sound next
  | call | fetch => exact computes.of_same rfl rfl (by simp) (by simp) (by simp [Datapath.step])

end Computes

/-! ## Runs -/

section

variable {S : Surroundings} {cfg : OooConfig} {outside : S.State} {tid : Nat} {c : Core S}

theorem computes_run (run : (machine S).Reachable (Core.make cfg outside tid) c) :
    Computes I start c.pipe := by
  have turns : Core.Turns fun c : Core S => c.Steady ∧ Computes I start c.pipe :=
    Core.turns_of_steps fun steady computes step => computes.step steady step
  refine (turns.run (fun state inv => ?_) ⟨steady_run .start, .reset ..⟩ run).2
  exact ⟨⟨inv.1.sound, inv.1.held, inv.1.loadStore⟩, inv.2⟩

/-- A core executes its program: whatever its instructions do, the committed registers
    are those after the retired instructions, one after the other; what has been written
    back is what its instruction computes there; results are found under the tags that
    table and queue name; and once nothing is in flight registers and memory are those
    of the whole program. -/
theorem executes_in_order (run : (machine S).Reachable (Core.make cfg outside tid) c) :
    (I.datapath start c.log).regs = (I.sequential start ((Log.retired c.log).map (·.1))).regs ∧
      (∀ front d back, Log.dispatched c.log = front ++ d :: back → (∀ s ∈ c.sq, s.destTag ≠ d.2) →
        (I.datapath start c.log).flow.file d.2 =
          I.meaning.value (I.sequential start (front.map (·.1))) d.1) ∧
      (∀ reg, (I.datapath start c.log).rename reg = (c.rat.entries reg).tag) ∧
      (∀ s ∈ c.sq, ∀ k, (I.datapath start c.log).operands s.destTag k =
        (s.inst.source k).map fun _ => (s.operand k).tag) ∧
      (c.dispq = [] → c.rob.count = 0 →
        (I.datapath start c.log).regs = (I.sequential start (Log.fetched c.log)).regs ∧
          (I.datapath start c.log).flow.mem = (I.sequential start (Log.fetched c.log)).mem) := by
  have computes : Computes I start c.pipe := computes_run run
  have sound := sound_run run
  have agrees := computes.agrees
  refine ⟨computes.regs, fun front d back split done => ?_, fun reg => (computes.table reg).symm,
    computes.operands, fun dispq rob => ?_⟩
  · have inside : d ∈ Log.dispatched c.log := by
      rw [split]
      exact List.mem_append_right _ List.mem_cons_self
    have idle : ¬c.pipe.Waits d.2 := by
      rintro ⟨s, mem, tag⟩
      exact done s mem tag
    have increasing := agrees.increasing
    have result := agrees.results d inside idle
    rw [show Log.dispatched c.pipe.log = _ from split] at increasing result
    rw [Dataflow.before_front increasing] at result
    exact result
  · have all := sound.order.all_retired dispq rob
    have idle : ∀ d ∈ Log.dispatched c.log, ¬c.pipe.Waits d.2 := by
      rintro d - ⟨s, mem, -⟩
      have queued := sound.linked.queued
      rw [show c.pipe.rob.toList = [] from CircularBuffer.toList_eq_nil.mpr rob] at queued
      rw [List.map_eq_nil_iff.mp queued] at mem
      cases mem
    have fetched := sound.order.fetched
    rw [show c.pipe.dispq = [] from dispq, List.append_nil] at fetched
    refine ⟨?_, ?_⟩
    · rw [← show (Log.retired c.log).map (·.1) = Log.fetched c.log from all]
      exact computes.regs
    · have mem := agrees.drained sound.linked.fresh idle
      rw [show Log.fetched c.log = _ from fetched]
      exact mem

end

/-- One more than the sum of the sources; loads and stores name a cell. -/
def scalar : Interpretation Nat (Nat → Nat) where
  result inst args mem :=
    if inst.opcode = .load then mem inst.memAddr
    else 1 + (args .src1).getD 0 + (args .src2).getD 0
  store inst args mem :=
    if inst.opcode = .store then Function.update mem inst.memAddr ((args .src1).getD 0) else mem
  blind inst args m m' other := by
    have other : inst.opcode ≠ .load := by
      rintro load
      simp [load, Opcode.isMem] at other
    simp [other]
  quiet inst args m other := by simp [other]

/-- A load of register 2, an instruction that makes register 3 of it, and a store of that. -/
def loadAddStore : Core listed :=
  (machine listed).attempt
    (Core.make {} [{ ip := 4, sourceMemory := [64], destinationRegisters := [2] },
      { ip := 8, sourceRegisters := [2], destinationRegisters := [3] },
      { ip := 12, sourceRegisters := [3], destinationMemory := [128] }] 0)
    (List.replicate 9 .tick)

def sevens : Dataflow.State Reg Nat (Nat → Nat) := { regs := fun _ => 0, mem := fun _ => 7 }

theorem executes_in_order_store :
    (scalar.datapath sevens loadAddStore.log).flow.mem =
        (scalar.sequential sevens (Log.fetched loadAddStore.log)).mem ∧
      (scalar.datapath sevens loadAddStore.log).flow.mem 128 = 8 := by
  have run : (machine listed).Reachable _ loadAddStore :=
    machine listed |>.reachable_attempt _ (List.replicate 9 .tick)
  refine ⟨?_, by decide +kernel⟩
  exact ((executes_in_order run).2.2.2.2 (by decide +kernel) (by decide +kernel)).2

end Ooo
