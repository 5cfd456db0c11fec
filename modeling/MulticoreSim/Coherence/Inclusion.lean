import MulticoreSim.Coherence.Copies
import MulticoreSim.Coherence.ExclusiveGrants
import MulticoreSim.Library.DirectoryProtocol.Copies

/-! # The directory's inclusion of the caches

The directory forgets a core on any eviction notice of it, and the core's agent is not
told. In runs where a core is forgotten only with its last copy, and where no agent
answers its core for a block the core was forgotten for, every copy is accounted for.
-/

namespace Coherence

open DirectoryProtocol Memory

variable {F : ProtocolFsm} {L : Laws F} {s : Settings} {σ σ' : System F adapterPort} {i : NodeId}
  {b : BlockId}

/-! ## Forgetting a core with its last copy -/

/-- The call gives notice only of blocks the core has no longer. -/
def Quits (s : Settings) (p : PortStep CoherenceAdapter) : Prop :=
  ∀ m ∈ p.sends, ¬ p.state.Has s m.block

/-- The core is ordered to give the block up. -/
def Revokes (m : Message) : Prop := m.kind = .reqInvalid ∨ m.kind = .recallGotoI

/-- Nothing is left of a block the core is ordered to give up: the caches hold no second line of
    it, and its agent does not answer the core for it in the same tick. -/
def CpuNode.Yields (s : Settings) (i : NodeId) (n : CpuNode F adapterPort) : Prop :=
  ∀ m ∈ n.ntwkIn, Revokes m →
    ¬ CoherenceAdapter.Holds s (CoherenceAdapter.onNtwkEvent s (n.called s i).state m) m.block ∧
      m.block ∉ n.procAnswer

/-- The core has no copy of the block, and none is on its way from the directory. -/
def Without (s : Settings) (σ : System F adapterPort) (i : NodeId) (b : BlockId) : Prop :=
  ¬ CoherenceAdapter.Has s (σ.cpus i).cpu b ∧
    ∀ m ∈ σ.arriving s i, m.block = b → ¬ m.kind.IsGrant

/-- The directory takes a writeback up, where it does not put it back. -/
def consumesWriteback (e : DirEntry) (r : Message) : Bool := (handleWriteback e r).any fun o => !o.cycled

/-- A core is forgotten only with its last copy, comes by a copy only while it is known, and is
    given leave to write only while it is known. -/
def Orderly (s : Settings) (σ : System F adapterPort) : Action adapterPort → Prop
  | .tick i =>
      Quits s ((σ.cpus i).called s i) ∧ (σ.cpus i).Yields s i ∧
        ∀ b ∈ (σ.cpus i).procAnswer, (σ.dir.directory b).presence i = true
  | .external i event =>
      WordSized (.external i event) ∧
        Quits s (CoherenceAdapter.core (σ.cpus i).cpu s i (σ.cpus i).cpuInNext event)
  | .dirTick =>
      σ.dir.requestInProgress = false → ∀ r ∈ σ.dir.requestQueue.head?,
        (consumesWriteback (σ.dir.directory r.block) r = true → Without s σ r.src r.block) ∧
          ¬ Wild (σ.dir.directory r.block) r
  | _ => True

instance (s : Settings) (p : PortStep CoherenceAdapter) : Decidable (Quits s p) := by
  unfold Quits
  infer_instance

instance (m : Message) : Decidable (Revokes m) := by
  unfold Revokes
  infer_instance

instance (s : Settings) (i : NodeId) (n : CpuNode F adapterPort) : Decidable (n.Yields s i) := by
  unfold CpuNode.Yields
  infer_instance

instance (s : Settings) (σ : System F adapterPort) (i : NodeId) (b : BlockId) :
    Decidable (Without s σ i b) :=
  inferInstanceAs (Decidable (¬ CoherenceAdapter.Has s (show CoherenceAdapter from (σ.cpus i).cpu) b ∧
    ∀ m ∈ σ.arriving s i, m.block = b → ¬ m.kind.IsGrant))

instance (s : Settings) (σ : System F adapterPort) (a : Action adapterPort) :
    Decidable (Orderly s σ a) :=
  match a with
  | .tick i =>
      inferInstanceAs (Decidable (Quits s (show PortStep CoherenceAdapter from (σ.cpus i).called s i) ∧
        (σ.cpus i).Yields s i ∧ ∀ b ∈ (σ.cpus i).procAnswer, (σ.dir.directory b).presence i = true))
  | .external i event =>
      inferInstanceAs (Decidable (WordSized (.external i event) ∧
        Quits s (CoherenceAdapter.core (σ.cpus i).cpu s i (σ.cpus i).cpuInNext event)))
  | .dirTick =>
      inferInstanceAs (Decidable (σ.dir.requestInProgress = false → ∀ r ∈ σ.dir.requestQueue.head?,
        (consumesWriteback (σ.dir.directory r.block) r = true → Without s σ r.src r.block) ∧
          ¬ Wild (σ.dir.directory r.block) r))
  | .tock _ | .deliver _ | .dirTock | .dirDeliver _ => isTrue trivial

/-! ## What the guard says of the lines -/

theorem tickProc_cpu {n n' : CpuNode F adapterPort} {st st' : CoherenceStats}
    (step : n.tickProc s i st = .ok (n', st')) :
    ∃ slot, n'.cpu = { (show CoherenceAdapter from n.cpu) with cacheInNext := slot } := by
  unfold CpuNode.tickProc at step
  split at step
  · cases step
    exact ⟨_, rfl⟩
  · split at step
    · cases step
    · cases step
      exact ⟨_, CpuNode.apply_fields _ _ _⟩

theorem holds_slot (a : CoherenceAdapter) (m : Message) (slot : Option Message)
    (holds : (CoherenceAdapter.onNtwkEvent s { a with cacheInNext := slot } m).Holds s b) :
    (a.onNtwkEvent s m).Holds s b := by
  unfold CoherenceAdapter.onNtwkEvent at holds ⊢
  simp only at holds ⊢
  split at holds
  case h_3 =>
    split at holds
    · next dirty =>
        rw [if_pos dirty]
        exact holds
    · next clean =>
        rw [if_neg clean]
        exact holds
  all_goals exact holds

/-- An orderly action is tidy: no copy outlives its notice or its revocation. -/
theorem Orderly.tidy (stacked : ∀ i, CoherenceAdapter.Stacked (σ.cpus i).cpu)
    (whole : ∀ i, (σ.cpus i).Wholesome L.toAgentLaws s) {a : Action adapterPort} (orderly : Orderly s σ a) :
    Tidy (CoherenceAdapter.Has s) s σ a := by
  cases a with
  | tick i =>
      obtain ⟨quits, yields, -⟩ := orderly
      refine ⟨⟨fun b has => ?_, quits⟩, ?_⟩
      · exact CoherenceAdapter.Has.tick (stacked i) (whole i).filling has
      · intro n st st' step m arrived revokes has
        have own : (σ.cpus i).ntwkIn = some m := (CpuNode.tickProc_ntwkIn step).symm.trans arrived
        obtain ⟨gone, silent⟩ := yields m own revokes
        obtain ⟨slot, cpu⟩ := tickProc_cpu step
        have waiting := CpuNode.tickProc_waitingFill step
        rcases has.2 with holds | ⟨m', mem, same⟩
        · rw [cpu] at holds
          exact gone (holds_slot _ m slot holds)
        · have mem : m' ∈ CoherenceAdapter.cacheInNext n.cpu :=
            CoherenceAdapter.onNtwkEvent_slot (s := s) n.cpu m ▸ mem
          have fills : m.block ∈ n.waitingFill := by
            rw [← same]
            exact List.mem_map_of_mem (Option.mem_toList.mpr mem)
          have empty : ((σ.cpus i).portStep ((σ.cpus i).called s i)).waitingFill = [] :=
            congrArg (fun slot => slot.toList.map (·.block)) (CoherenceAdapter.tick_slot _ _)
          rw [waiting, empty] at fills
          split at fills
          · cases fills
          · exact silent fills
  | external i event =>
      rintro p called
      cases called
      obtain ⟨sized, quits⟩ := orderly
      refine ⟨fun b has => ?_, quits⟩
      apply CoherenceAdapter.Has.core (stacked i) _ has
      rintro req rfl
      exact sized
  | tock i | deliver i | dirTick | dirTock | dirDeliver src => trivial

/-! ## Covered lines -/

/-- Every line covers its copies. -/
def Covers (lines : BlockId → Block NodeId) : Prop := ∀ b, (lines b).Covered

/-- A line that shows a copy the core does not have may as well not. -/
theorem Shows.lose {R : CoherenceAdapter → BlockId → Prop} {lines : BlockId → Block NodeId}
    (shows : Shows L R s σ lines) (covers : Covers lines)
    (gone : ¬ R (σ.cpus i).cpu b) :
    ∃ lines', Shows L R s σ lines' ∧ Covers lines' ∧ ((lines' b).slot i).resident = false := by
  have abs := shows.abs b
  have lost : Abs L R s σ b ((lines b).after (.lose i)) := by
    have same : σ.setCpu i (σ.cpus i) = σ := by simp [System.setCpu]
    rw [← same]
    apply abs.node (abs.inv.after (e := .lose i) trivial) (abs.within.after (e := .lose i) trivial trivial)
      (abs.view i) (fun _ => rfl) (fun _ => id) (fun _ => Iff.rfl) Iff.rfl
    exact fun has => absurd has gone
  refine ⟨Function.update lines b ((lines b).after (.lose i)), ⟨shows.net, fun b' => ?_⟩, fun b' => ?_, ?_⟩
  · by_cases eq : b' = b
    · subst eq
      rwa [Function.update_self]
    · rw [Function.update_of_ne eq]
      exact shows.abs b'
  · by_cases eq : b' = b
    · subst eq
      rw [Function.update_self]
      exact (covers b').after abs.inv (e := .lose i) trivial trivial
    · rw [Function.update_of_ne eq]
      exact covers b'
  · rw [Function.update_self]
    simp [Block.after, Slot.lose]

/-- What an orderly action other than the directory's tick makes of a line tracks the copies. -/
theorem Orderly.tracks {a : Action adapterPort} (orderly : Orderly s σ a) (other : a ≠ .dirTick)
    {X : Block NodeId} {e : Event NodeId} (chosen : Chosen L (CoherenceAdapter.Has s) s σ b X e a) :
    X.Tracks e := by
  cases a with
  | dirTick => exact absurd rfl other
  | external i event =>
      obtain ⟨p, -, rfl, -⟩ := chosen
      trivial
  | tick i =>
      rcases chosen with ⟨rfl, -⟩ | ⟨abs, -, m, answer, arrived, rfl, acts, asks | refills⟩ | takes
      · trivial
      · obtain ⟨⟨q, rfl⟩, -⟩ := asks
        trivial
      · obtain ⟨rfl, answered⟩ := refills
        obtain ⟨-, -, known⟩ := orderly
        have own : (σ.cpus i).procAnswer = [m.block] := by
          have arrived : (σ.cpus i).cpuIn = some m := arrived
          have acts : F.processProcRequest ((σ.cpus i).agents m.block) m.kind = .ok answer := acts
          simp only [CpuNode.procAnswer, arrived, acts, answered, if_true]
        apply (abs.entry.members.presence i).mp
        apply known
        rw [own]
        exact List.mem_singleton_self _
      · cases e <;> first | exact takes.elim | trivial
  | tock i | deliver i | dirTock | dirDeliver src => exact chosen.elim

/-- The line shows no copy of a core whose eviction notice is taken up next. -/
def Vacated (σ : System F adapterPort) (b : BlockId) (X : Block NodeId) : Prop :=
  ∀ r rest, σ.dir.requestInProgress = false → σ.dir.requestQueue = r :: rest →
    consumesWriteback (σ.dir.directory r.block) r = true → r.block = b → (X.slot r.src).resident = false

/-- Nor need it show one. -/
theorem Shows.vacate {lines : BlockId → Block NodeId} (shows : Shows L (CoherenceAdapter.Has s) s σ lines)
    (covers : Covers lines) (orderly : Orderly s σ .dirTick) :
    ∃ lines', Shows L (CoherenceAdapter.Has s) s σ lines' ∧ Covers lines' ∧ ∀ b, Vacated σ b (lines' b) := by
  by_cases taken : σ.dir.requestInProgress = false ∧
      ∃ r rest, σ.dir.requestQueue = r :: rest ∧ consumesWriteback (σ.dir.directory r.block) r = true
  · obtain ⟨free, r, rest, queue, consumed⟩ := taken
    have first : r ∈ σ.dir.requestQueue.head? := by simp [queue]
    have without := ((orderly free r first).1 consumed).1
    obtain ⟨lines', shows', covers', absent⟩ := shows.lose covers without
    refine ⟨lines', shows', covers', fun b r' rest' _ queue' _ about => ?_⟩
    cases queue.symm.trans queue'
    exact about ▸ absent
  · refine ⟨lines, shows, covers, fun b r rest free queue consumed _ => ?_⟩
    exact absurd ⟨free, r, rest, queue, consumed⟩ taken

/-- An entry that stands for a stable line takes a notice up. -/
theorem consumes_of_stable {P : Profile} {marks : Prop} {n : Nat} {e : DirEntry} {B : Block NodeId}
    {r : Message} (entry : Entry P marks n b e B) (stable : B.mode.Stable) (notice : r.kind = .dataWb) :
    consumesWriteback e r = true := by
  have stands := entry.stands
  have settled : e.state = .I ∨ e.state = .S ∨ e.state = .E ∨ e.state = .M ∨ e.state = .O ∨ e.state = .F := by
    cases mode : B.mode with
    | idle | shared =>
        rw [mode] at stands
        simp [show e.state = _ from stands]
    | exclusive o c | owned o c =>
        rw [mode] at stands
        cases c <;> simp [show e.state = _ from stands]
    | _ =>
        rw [mode] at stable
        cases stable
  unfold consumesWriteback handleWriteback
  rw [if_neg (by simp [notice])]
  rcases settled with state | state | state | state | state | state
  all_goals
    rw [state]
    rfl

theorem Orderly.tracks_dirTick (orderly : Orderly s σ .dirTick) (net : Network s σ) {X : Block NodeId}
    {e : Event NodeId} (vacated : Vacated σ b X) (enabled : X.Enabled e)
    (chosen : Chosen L (CoherenceAdapter.Has s) s σ b X e .dirTick) : X.Tracks e := by
  rcases chosen with ⟨i, g, rfl⟩ | ⟨r, rest, B, free, queue, rfl, seen, legal⟩
  · trivial
  · obtain ⟨without, tame⟩ := orderly free r (by simp [queue])
    obtain ⟨-, slot, promotes, -, -, notices⟩ := legal
    cases e with
    | promote h i => exact (promotes h i rfl).resolve_right tame
    | refill i => cases slot
    | writeback i =>
        obtain ⟨rfl, rfl, notice⟩ := notices i rfl
        have consumed := consumes_of_stable seen.2.1 enabled.2.1 notice
        refine ⟨vacated r rest free queue consumed rfl, fun g granted => ?_⟩
        -- A grant to the sender would be on its way to it.
        have bound : r.src < s.numProcs := net.queued r (by simp [queue])
        have here : (grantKind g, false) ∈ orders r.block (σ.arriving s r.src) := by
          rw [seen.2.2 r.src bound]
          simp [Coherence.down, downGrant, granted]
        obtain ⟨m, mem, grant⟩ := List.mem_map.mp here
        obtain ⟨arrives, block⟩ := List.mem_filter.mp mem
        have kind : m.kind = grantKind g := congrArg Prod.fst grant
        apply (without consumed).2 m arrives (by simpa using block)
        rw [kind]
        cases g <;> simp [MessageKind.IsGrant, grantKind]
    | _ => trivial

theorem Chosen.directed {X : Block NodeId} {e : Event NodeId} {R : CoherenceAdapter → BlockId → Prop}
    (chosen : Chosen L R s σ b X e .dirTick) : e.slot = none ∨ ∃ i g, e = .respond i g := by
  rcases chosen with respond | ⟨r, rest, B, -, -, -, -, legal⟩
  · exact .inr respond
  · exact .inl legal.2.1

/-- What an orderly action makes of the lines keeps them covered. -/
theorem Covers.advance {lines lines' : BlockId → Block NodeId}
    (shows : Shows L (CoherenceAdapter.Has s) s σ lines) (covers : Covers lines) {a : Action adapterPort}
    (orderly : Orderly s σ a) (vacated : a = .dirTick → ∀ b, Vacated σ b (lines b))
    (advances : ∀ b, Advance L (CoherenceAdapter.Has s) s σ a b (lines b) (lines' b)) : Covers lines' := by
  intro b
  by_cases half : a = .dirTick
  · subst half
    have kept := Block.Steps.keep (I := fun X => X.Inv ∧ X.Covered ∧ Vacated σ b X) (advances b).steps
      ⟨(shows.abs b).inv, covers b, vacated rfl b⟩ ?_
    · exact kept.2.1
    · rintro X e ⟨inv, covered, absent⟩ chosen enabled
      have tracks := orderly.tracks_dirTick shows.net absent enabled chosen
      refine ⟨inv.after enabled, covered.after inv enabled tracks, ?_⟩
      intro r rest free queue consumed about
      rw [X.resident_after chosen.directed]
      exact absent r rest free queue consumed about
  · have kept := Block.Steps.keep (I := fun X => X.Inv ∧ X.Covered) (advances b).steps
      ⟨(shows.abs b).inv, covers b⟩ fun X e inv chosen enabled =>
        ⟨inv.1.after enabled, inv.2.after inv.1 enabled (orderly.tracks half chosen)⟩
    exact kept.2

/-- An orderly action keeps every line covered. -/
theorem Covers.step {lines : BlockId → Block NodeId} (shows : Shows L (CoherenceAdapter.Has s) s σ lines)
    (covers : Covers lines) (small : s.numProcs ≤ kMaxSharers) {a : Action adapterPort}
    (tidy : Tidy (CoherenceAdapter.Has s) s σ a) (orderly : Orderly s σ a) (step : σ.step s a = .ok σ') :
    ∃ lines', Shows L (CoherenceAdapter.Has s) s σ' lines' ∧ Covers lines' := by
  obtain ⟨lines₀, shows₀, covers₀, vacated⟩ : ∃ lines₀, Shows L (CoherenceAdapter.Has s) s σ lines₀ ∧
      Covers lines₀ ∧ (a = .dirTick → ∀ b, Vacated σ b (lines₀ b)) := by
    by_cases half : a = .dirTick
    · subst half
      obtain ⟨lines₀, shows₀, covers₀, vacated⟩ := shows.vacate covers orderly
      exact ⟨lines₀, shows₀, covers₀, fun _ => vacated⟩
    · exact ⟨lines, shows, covers, fun same => absurd same half⟩
  have laws := CoherenceAdapter.has_laws s
  obtain ⟨lines', advances⟩ := step_advances laws shows₀.net small shows₀.abs tidy step
  refine ⟨lines', ⟨shows₀.net.step laws small shows₀.abs step, fun b => (advances b).1⟩, ?_⟩
  exact covers₀.advance shows₀ orderly vacated fun b => (advances b).2

/-! ## Orderly runs -/

/-- A core that has a copy of a block is present in the block's entry, or there is a message about
    the block between the two. -/
def Included (s : Settings) (σ : System F adapterPort) : Prop :=
  ∀ i < s.numProcs, ∀ B, CoherenceAdapter.Lodges (σ.cpus i).cpu B →
    (σ.dir.directory (toByteBlock s B)).presence i = true ∨
      (∃ m ∈ σ.carried s i ++ σ.arriving s i, m.block = toByteBlock s B) ∨
      ∃ g, σ.dir.owes (toByteBlock s B) i = some g

section

variable {l1 l2 : Config}

theorem Orderly.sized {a : Action adapterPort} (orderly : Orderly s σ a) : WordSized a := by
  cases a with
  | external i event => exact orderly.1
  | tick | tock | deliver | dirTick | dirTock | dirDeliver => trivial

/-- Every orderly run shows covered lines. -/
theorem covers_run (L : Laws F) (small : s.numProcs ≤ kMaxSharers)
    (same : s.cacheMode = .privateL2 → l1.b = l2.b)
    (run : (System.machine F adapterPort s).Run (Orderly s) (fullMode F s l1 l2) σ) :
    ∃ lines, Shows L (CoherenceAdapter.Has s) s σ lines ∧ Covers lines := by
  apply run.invariant_under (J := fun σ => ∀ i, CoherenceAdapter.Stacked (σ.cpus i).cpu ∧
      (σ.cpus i).Wholesome L.toAgentLaws s)
    (I := fun σ => ∃ lines, Shows L (CoherenceAdapter.Has s) s σ lines ∧ Covers lines)
  · exact fun σ there i => ⟨stacked_run same there.reachable i,
      wholesome_run L.toAgentLaws same (fun _ _ => Orderly.sized) there i⟩
  · exact ⟨_, Shows.initial L s fun _ _ b => CoherenceAdapter.wire_without s l1 l2 b, fun _ => .initial⟩
  · rintro σ a σ' nodes ⟨lines, shows, covers⟩ orderly step
    have tidy : Tidy (CoherenceAdapter.Has s) s σ a :=
      orderly.tidy (fun i => (nodes i).1) fun i => (nodes i).2
    exact covers.step shows small tidy orderly step

/-- In every orderly run of full mode the directory accounts for every copy in the caches. -/
theorem included_when_orderly (p : Protocol) (s : Settings) (small : s.numProcs ≤ kMaxSharers)
    (l1 l2 : Config) (same : s.cacheMode = .privateL2 → l1.b = l2.b) :
    ∀ σ, (System.machine p.fsm adapterPort s).Run (Orderly s) (fullMode p.fsm s l1 l2) σ →
      Included s σ := by
  intro σ run i bound B lodges
  obtain ⟨lines, shows, covers⟩ := covers_run p.laws small same run
  have fits := (wholesome_run p.laws.toAgentLaws same (fun _ _ => Orderly.sized) run i).fits
  have has := fits.has lodges
  have abs := shows.abs (toByteBlock s B)
  have member := (covers (toByteBlock s B)).resident i (abs.resident i bound has)
  exact .inl ((abs.entry.members.presence i).mpr member)

end

/-! ### A copy that nobody accounts for -/

def refillSettings : Settings := { protocol := .MSI, numProcs := 1, memLatency := 1, cacheMode := .sharedLls }

/-- A core loads a block, drives it out with another and loads it again. -/
def refilled : System (Protocol.fsm .MSI) adapterPort :=
  (System.machine _ adapterPort refillSettings).attempt (fullMode _ refillSettings tinyL1 {})
    ([load 0 0] ++ cycles 1 8 ++ [done 0 1, load 0 128] ++ cycles 1 8 ++ [done 0 2, load 0 0] ++
      cycles 1 6)

/-- Its agent, which is still in `S`, has answered for the block the directory has forgotten it for. -/
theorem refilled_unaccounted :
    (System.machine _ adapterPort refillSettings).Run (Driven refillSettings)
        (fullMode _ refillSettings tinyL1 {}) refilled ∧ ¬ Included refillSettings refilled := by
  refine ⟨Machine.run_attempt _ (by decide +kernel), fun included => ?_⟩
  obtain ⟨lodges, absent, carried, arriving, idle⟩ :
      CoherenceAdapter.Lodges (show CoherenceAdapter from (refilled.cpus 0).cpu) 0 ∧
        (refilled.dir.directory 0).presence 0 = false ∧ refilled.carried refillSettings 0 = [] ∧
        refilled.arriving refillSettings 0 = [] ∧ refilled.dir.owes 0 0 = none := by
    decide +kernel
  rcases included 0 (by decide) 0 lodges with present | ⟨m, mem, -⟩ | ⟨g, owes⟩
  · cases absent.symm.trans present
  · rw [carried, arriving] at mem
    cases mem
  · cases idle.symm.trans owes

def evictionSettings : Settings := { protocol := .MOESIF, numProcs := 2, memLatency := 1 }

/-- Core 0 drives a block out that core 1 then stores to. -/
def drivenOut : System (Protocol.fsm .MOESIF) adapterPort :=
  (System.machine _ adapterPort evictionSettings).attempt
    (fullMode _ evictionSettings tinyL1 tinyL1)
    ([load 0 0] ++ cycles 2 8 ++ [done 0 1, load 0 128] ++ cycles 2 8 ++ [store 1 0] ++ cycles 2 8)

theorem included_driven_out : Included evictionSettings drivenOut :=
  included_when_orderly .MOESIF evictionSettings (by decide) tinyL1 tinyL1 (fun _ => rfl) drivenOut
    (Machine.run_attempt _ (by decide +kernel))

end Coherence
