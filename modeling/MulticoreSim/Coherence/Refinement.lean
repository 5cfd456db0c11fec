import MulticoreSim.Coherence.NetworkSteps

/-! # The network refines its lines

Every action of the network moves every line by enabled events, and which events
these may be (`Chosen`). What the events keep, a run of the network keeps.
-/

namespace Coherence

open DirectoryProtocol

variable {F : ProtocolFsm} {π : CpuPort} {L : Laws F} {R : π.State → BlockId → Prop} {s : Settings}
  {σ σ' : System F π} {b : BlockId} {B B' : Block NodeId} {i : NodeId}

/-! ## Every action -/

/-- The message at the head of the queue is not one that starves its round. -/
def Fed (L : Laws F) (s : Settings) (σ : System F π) : Action π → Prop
  | .dirTick => ∀ r rest, σ.dir.requestInProgress = false → σ.dir.requestQueue = r :: rest →
      ¬ L.starved s (σ.dir.directory r.block) r
  | _ => True

/-- The port call of `Node::tick`. -/
def CpuNode.called (n : CpuNode F π) (s : Settings) (i : NodeId) : PortStep π.State :=
  π.tick s i n.cpu n.cpuInNext

/-- A call of a port brings no copy in, and leaves none it gives notice of. -/
def Leaves (R : π.State → BlockId → Prop) (st : π.State) (p : PortStep π.State) : Prop :=
  (∀ b, R p.state b → R st b) ∧ ∀ m ∈ p.sends, ¬ R p.state m.block

/-- No copy outlives its eviction notice or its invalidation. -/
def Tidy (R : π.State → BlockId → Prop) (s : Settings) (σ : System F π) : Action π → Prop
  | .tick i =>
      let p := (σ.cpus i).called s i
      Leaves R (σ.cpus i).cpu p ∧
        ∀ n st st', ((σ.cpus i).portStep p).tickProc s i st = .ok (n, st') →
          ∀ m, n.ntwkIn = some m → m.kind = .reqInvalid ∨ m.kind = .recallGotoI →
            ¬ R (π.onNtwkEvent s n.cpu m) m.block
  | .external i e => ∀ p, π.external s i (σ.cpus i).cpu (σ.cpus i).cpuInNext e = some p →
      Leaves R (σ.cpus i).cpu p
  | _ => True

/-- The node gives the block up, having asked for it or not. -/
def Evicts (L : Laws F) (σ : System F π) (i : NodeId) (p : PortStep π.State) (b : BlockId)
    (X : Block NodeId) (e : Event NodeId) : Prop :=
  e = .evict i ∧ (∃ m ∈ p.sends, m.block = b) ∧
    ((X.slot i).phase = .rest ↔ (L.view ((σ.cpus i).agents b)).want = .nothing)

/-- The line the agents, the directory's entry and the messages on their way to the agents
    stand for. -/
def Seen (L : Laws F) (s : Settings) (σ : System F π) (b : BlockId) (B : Block NodeId) : Prop :=
  (∀ i, L.view ((σ.cpus i).agents b) = ⟨(B.slot i).right, (B.slot i).want⟩) ∧
    Entry L.profile L.marks s.numProcs b (σ.dir.directory b) B ∧
    ∀ i < s.numProcs, orders b (σ.arriving s i) = down (B.slot i)

theorem Abs.seen (abs : Abs L R s σ b B) : Seen L s σ b B := ⟨abs.view, abs.entry, abs.downward⟩

/-- The events an action may consist of on the line of block `b`. -/
def Chosen (L : Laws F) (R : π.State → BlockId → Prop) (s : Settings) (σ : System F π) (b : BlockId)
    (X : Block NodeId) (e : Event NodeId) : Action π → Prop
  | .tick i =>
      let p := (σ.cpus i).called s i
      let n := (σ.cpus i).portStep p
      Evicts L σ i p b X e ∨
        Abs L R s (σ.setCpu i n) b X ∧ L.profile.Event e ∧ ProcEvent F n b i e ∨ TakesIn i e
  | .external i event =>
      ∃ p, π.external s i (σ.cpus i).cpu (σ.cpus i).cpuInNext event = some p ∧ Evicts L σ i p b X e
  | .dirTick =>
      (∃ i g, e = .respond i g) ∨
        ∃ r rest B, σ.dir.requestInProgress = false ∧ σ.dir.requestQueue = r :: rest ∧ r.block = b ∧
          Seen L s σ b B ∧
          Legal L.profile (L.starved s (σ.dir.directory b) r) (Wild (σ.dir.directory b) r) B r X e
  | _ => False

/-- What an action does to a line. -/
structure Advance (L : Laws F) (R : π.State → BlockId → Prop) (s : Settings) (σ : System F π)
    (a : Action π) (b : BlockId) (B B' : Block NodeId) : Prop where
  steps : B.Steps (fun X e => Chosen L R s σ b X e a) B'
  live : Fed L s σ a → B.Inv → B.Live → B.Untrapped → B'.Live ∧ B'.Untrapped

theorem Chosen.event {X : Block NodeId} {e : Event NodeId} {a : Action π}
    (chosen : Chosen L R s σ b X e a) : L.profile.Event e := by
  cases a with
  | tick i =>
      rcases chosen with ⟨rfl, -⟩ | ⟨-, event, -⟩ | takes
      · trivial
      · exact event
      · cases e <;> first | exact takes.elim | trivial
  | external i event =>
      obtain ⟨p, -, rfl, -⟩ := chosen
      trivial
  | dirTick =>
      rcases chosen with ⟨i, g, rfl⟩ | ⟨r, rest, B, -, -, -, -, legal⟩
      · trivial
      · exact legal.1
  | tock i | deliver i | dirTock | dirDeliver src => cases chosen

theorem Advance.refl {a : Action π} : Advance L R s σ a b B B where
  steps := .refl
  live _ _ live untrapped := ⟨live, untrapped⟩

theorem Advance.trans {a : Action π} {C : Block NodeId} (first : Advance L R s σ a b B B')
    (second : Advance L R s σ a b B' C) : Advance L R s σ a b B C where
  steps := first.steps.trans second.steps
  live fed inv live untrapped := by
    have kept := first.live fed inv live untrapped
    exact second.live fed (first.steps.inv inv) kept.1 kept.2

/-- Events of nodes, and memory's answers, keep every round alive. -/
theorem Advance.ofSlots {a : Action π} {ok : Block NodeId → Event NodeId → Prop}
    (steps : B.Steps ok B') (chosen : ∀ X e, ok X e → Chosen L R s σ b X e a)
    (slots : ∀ X e, ok X e → e.slot ≠ none) : Advance L R s σ a b B B' where
  steps := steps.mono chosen
  live _ inv live untrapped := by
    have kept := Block.Steps.keep (I := fun X => X.Inv ∧ X.Live ∧ X.Untrapped) steps
      ⟨inv, live, untrapped⟩ ?_
    · exact kept.2
    · rintro X e ⟨inv, live, untrapped⟩ meets enabled
      obtain ⟨⟨i, f⟩, slot⟩ := Option.ne_none_iff_exists'.mp (slots X e meets)
      have keeps := inv.keeps enabled slot
      refine ⟨inv.after enabled, ?_⟩
      rw [X.after_of_slot slot]
      exact ⟨live.node keeps, untrapped.node keeps⟩

/-! ## The directory's tick -/

section

variable {lines : BlockId → Block NodeId} {d : DirectoryController} {st st' : CoherenceStats}

theorem carryOut_sendE {r : Message} {rest : List Message} {o : Outcome}
    (marked : σ.dir.sendE = false) (clean : o.sendE = true → o.schedule ≠ none)
    (free : (σ.dir.carryOut s st r rest o).1.requestInProgress = false) :
    (σ.dir.carryOut s st r rest o).1.sendE = false := by
  obtain ⟨-, -, -, -, sendE, -, latched⟩ := carryOut_fields σ.dir s st r rest o
  rw [sendE, marked, Bool.false_or]
  by_contra mark
  obtain ⟨x, schedule⟩ := Option.ne_none_iff_exists'.mp (clean (by simpa using mark))
  cases free.symm.trans (latched x schedule).1

/-- The half of the tick that reads the queue. -/
theorem processQueue_advances (net : Network s σ) (small : s.numProcs ≤ kMaxSharers)
    (abs : ∀ b, Abs L R s σ b (lines b))
    (step : System.processQueue F s σ.dir st = .ok (d, st')) :
    (d.requestInProgress = false → d.sendE = false) ∧
      ∃ lines' : BlockId → Block NodeId, ∀ b, Abs L R s { σ with dir := d } b (lines' b) ∧
        Advance L R s σ .dirTick b (lines b) (lines' b) := by
  unfold System.processQueue at step
  split at step
  · cases step
    exact ⟨net.sendE, lines, fun b => ⟨abs b, .refl⟩⟩
  · next free =>
      have free : σ.dir.requestInProgress = false := by simpa using free
      split at step
      · cases step
        exact ⟨net.sendE, lines, fun b => ⟨abs b, .refl⟩⟩
      · next r rest queue =>
          have meets := (abs r.block).meets net small free queue
          have outcome : ∃ o B', Refines L.profile L.marks s.numProcs r.block
              (L.starved s (σ.dir.directory r.block) r) (Wild (σ.dir.directory r.block) r)
              (lines r.block) r o B' ∧ d = (σ.dir.carryOut s st r rest o).1 := by
            simp only at step
            split at step
            · next o written =>
                obtain ⟨B', refines⟩ := meets.handleWriteback written
                exact ⟨o, B', refines, (congrArg Prod.fst (Except.ok.inj step)).symm⟩
            · split at step
              · cases step
              · next o handled =>
                  obtain ⟨B', refines⟩ := L.refines meets handled
                  exact ⟨o, B', refines, (congrArg Prod.fst (Except.ok.inj step)).symm⟩
          obtain ⟨o, B', refines, rfl⟩ := outcome
          refine ⟨carryOut_sendE (net.sendE free) refines.clean, Function.update lines r.block B',
            fun b => ?_⟩
          by_cases eq : b = r.block
          · subst b
            rw [Function.update_self]
            refine ⟨(abs r.block).carryOut net free queue refines st, ?_, ?_⟩
            · exact Block.Steps.mono refines.steps fun X e legal =>
                .inr ⟨r, rest, _, free, queue, rfl, (abs r.block).seen, legal⟩
            · intro fed inv live untrapped
              have fed := fed r rest free queue
              have untrapped' := Block.Steps.keep (I := fun X => X.Inv ∧ X.Untrapped) refines.steps
                ⟨inv, untrapped⟩ fun X e kept legal enabled =>
                  ⟨kept.1.after enabled, kept.2.after kept.1 enabled fun o i c eq =>
                    (legal.2.2.2.1 o i c eq).resolve_right fed⟩
              exact ⟨(refines.awaits fed live.awaiting).live untrapped'.1 untrapped'.2,
                untrapped'.2⟩
          · rw [Function.update_of_ne eq]
            exact ⟨(abs b).carryOut_other (Ne.symm eq) free queue refines.tags refines.scheduled st,
              .refl⟩

/-- The grant the directory has memory prepare. -/
def DirectoryController.grant (d : DirectoryController) : Grant :=
  if d.sendE then .cleanExclusive else .data

theorem respond_fields {d : DirectoryController} {usesE : Bool} (uses : d.sendE = true → usesE = true)
    (s : Settings) (st : CoherenceStats) :
    (d.respond s usesE st).1 = d ∨ d.requestInProgress = true ∧ (d.respond s usesE st).1 =
      { d.sendRequest s { dest := d.targetNode, tag := d.tagToSend, kind := grantKind d.grant } with
        sendE := false, requestInProgress := false } := by
  unfold DirectoryController.respond
  split
  · next busy =>
      refine .inr ⟨by simpa using busy.1, ?_⟩
      cases sendE : d.sendE with
      | true => simp [sendE, uses sendE, DirectoryController.grant, grantKind]
      | false => simp [sendE, DirectoryController.grant, grantKind, DirectoryController.sendRequest]
  · exact .inl rfl

theorem orders_answer (b tag : BlockId) (s : Settings) (dest j : NodeId) (g : Grant) :
    orders b ([DirectoryController.request s { dest := dest, tag := tag, kind := grantKind g }].filter
      (·.dst = j)) =
      if tag = b then (if dest = j then [(grantKind g, false)] else []) else [] := by
  by_cases to_j : dest = j <;> by_cases eq : tag = b <;>
    simp [DirectoryController.request, orders_cons, to_j, eq]

/-- The node memory prepares an answer for is waiting for it. -/
theorem owed_grant (abs : ∀ b, Abs L R s σ b (lines b)) (busy : σ.dir.requestInProgress = true) :
    ((lines σ.dir.tagToSend).slot σ.dir.targetNode).phase = .fetching σ.dir.grant := by
  refine ((abs σ.dir.tagToSend).fetching σ.dir.targetNode σ.dir.grant).mpr ?_
  exact if_pos ⟨busy, rfl, rfl⟩

/-- Only the protocols that look at `send_E` set it. -/
theorem uses_sendE (marked : σ.dir.requestInProgress = false → σ.dir.sendE = false)
    (abs : ∀ b, Abs L R s σ b (lines b)) (sendE : σ.dir.sendE = true) : F.usesE = true := by
  have busy : σ.dir.requestInProgress = true := by
    by_contra free
    cases (marked (by simpa using free)).symm.trans sendE
  have clean : σ.dir.grant = .cleanExclusive := if_pos sendE
  have promised := ((abs σ.dir.tagToSend).within.slot σ.dir.targetNode).promised _
    (.inl (owed_grant abs busy))
  rw [clean] at promised
  exact L.usesE promised

/-- The half of the tick that answers from memory. -/
theorem respond_advances (marked : σ.dir.requestInProgress = false → σ.dir.sendE = false)
    (abs : ∀ b, Abs L R s σ b (lines b)) (st : CoherenceStats) :
    ∃ lines' : BlockId → Block NodeId,
      ∀ b, Abs L R s { σ with dir := (σ.dir.respond s F.usesE st).1 } b (lines' b) ∧
        (lines b).Steps (fun _ e => ∃ i g, e = .respond i g) (lines' b) := by
  let d := σ.dir
  have owed : d.requestInProgress = true →
      ((lines d.tagToSend).slot d.targetNode).phase = .fetching d.grant := owed_grant abs
  have uses : d.sendE = true → F.usesE = true := uses_sendE marked abs
  rcases respond_fields uses s st with same | ⟨busy, answered⟩
  · change (σ.dir.respond s F.usesE st).1 = σ.dir at same
    rw [same]
    exact ⟨lines, fun b => ⟨abs b, .refl⟩⟩
  · change (σ.dir.respond s F.usesE st).1 = _ at answered
    rw [answered]
    refine ⟨Function.update lines d.tagToSend
      ((lines d.tagToSend).modify d.targetNode (.grant d.grant)), fun b => ?_⟩
    by_cases eq : b = d.tagToSend
    · subst b
      rw [Function.update_self]
      have old := abs d.tagToSend
      have fetching := owed busy
      have enabled : (lines d.tagToSend).Enabled (.respond d.targetNode d.grant) := fetching
      have moves : ∀ j, Moves ((lines d.tagToSend).slot j)
          (((lines d.tagToSend).modify d.targetNode (.grant d.grant)).slot j) []
          (if d.targetNode = j then [(grantKind d.grant, false)] else []) none := by
        intro j
        rw [Block.modify_slot]
        by_cases at_j : d.targetNode = j
        · subst j
          rw [if_pos rfl, if_pos rfl]
          exact .grant_fetching ((old.inv.slots _).fetching _ fetching) fetching
        · rw [if_neg (Ne.symm at_j), if_neg at_j]
          refine .refl fun g phase => ?_
          have owed := (old.fetching j g).mp phase
          simp [DirectoryController.owes, d, at_j] at owed
      refine ⟨old.directed rfl (old.inv.after enabled) (old.within.after enabled trivial) moves
        (fun _ _ _ => rfl) ?_ ?_ ?_, ?_⟩
      · intro j _
        simp only [System.arriving, DirectoryController.sendRequest, List.filter_append,
          orders_append, List.append_assoc]
        rw [orders_answer, if_pos rfl]
      · intro j
        simp [DirectoryController.owes]
      · exact old.entry.node Iff.rfl
      · exact Block.Steps.single (e := .respond d.targetNode d.grant) ⟨_, _, rfl⟩ enabled
    · rw [Function.update_of_ne eq]
      refine ⟨(abs b).moved (fun _ => rfl) (fun _ _ _ => rfl) ?_ ?_ rfl (fun _ _ => id), .refl⟩
      · intro j _
        simp only [System.arriving, DirectoryController.sendRequest, List.filter_append,
          orders_append, List.append_assoc]
        rw [orders_answer, if_neg (Ne.symm eq), List.append_nil]
      · intro j
        simp [DirectoryController.owes, DirectoryController.sendRequest, d, Ne.symm eq]

/-- `DirectoryController::tick`. -/
theorem dirTick_advances (net : Network s σ) (small : s.numProcs ≤ kMaxSharers)
    (abs : ∀ b, Abs L R s σ b (lines b)) (step : σ.step s .dirTick = .ok σ') :
    ∃ lines' : BlockId → Block NodeId, ∀ b, Abs L R s σ' b (lines' b) ∧
      Advance L R s σ .dirTick b (lines b) (lines' b) := by
  simp only [System.step] at step
  split at step
  · split at step
    · cases step
    · next d st result =>
        cases step
        unfold System.tickDir at result
        split at result
        · cases result
        · next d' st' taken =>
            let clocked : System F π := { σ with dir := { σ.dir with currentClock := σ.clock } }
            have net' : Network s clocked :=
              ⟨net.out, net.sent, net.queued, net.ticked, net.tocked, net.sendE⟩
            have abs' : ∀ b, Abs L R s clocked b (lines b) := fun b =>
              (abs b).moved (fun _ => rfl) (fun _ _ _ => rfl) (fun _ _ => rfl) (fun _ => rfl) rfl
                (fun _ _ => id)
            obtain ⟨marked, lines', first⟩ := processQueue_advances net' small abs' taken
            obtain ⟨lines'', second⟩ := respond_advances marked (fun b => (first b).1) st'
            have dir : d = (d'.respond s F.usesE st').1 :=
              (congrArg Prod.fst (Except.ok.inj result)).symm
            subst dir
            refine ⟨lines'', fun b => ⟨?_, ?_⟩⟩
            · exact (second b).1.moved (fun _ => rfl) (fun _ _ _ => rfl) (fun _ _ => rfl)
                (fun _ => rfl) rfl (fun _ _ => id)
            · have first : Advance L R s σ .dirTick b (lines b) (lines' b) :=
                ⟨(first b).2.steps, (first b).2.live⟩
              exact first.trans (.ofSlots (second b).2 (fun _ _ => .inl) (by
                rintro X e ⟨i, g, rfl⟩ slot
                cases slot))
  · cases step

end

/-! ## A node's tick -/

/-- The port and the agents' answer to the processor: what comes before the network in a tick. -/
theorem Abs.procHalf (abs : Abs L R s σ b B) (laws : PortLaws π R) (bound : i < s.numProcs)
    (tidy : Leaves R (σ.cpus i).cpu ((σ.cpus i).called s i))
    {n : CpuNode F π} {st st' : CoherenceStats}
    (answered : ((σ.cpus i).portStep ((σ.cpus i).called s i)).tickProc s i st = .ok (n, st')) :
    ∃ B', Abs L R s (σ.setCpu i n) b B' ∧
      B.Steps (fun X e => Chosen L R s σ b X e (.tick i) ∧ e.slot ≠ none) B' := by
  obtain ⟨B₁, steps₁, abs₁⟩ := abs.portStep bound
    (fun m mem => (laws.tick_sends _ _ _ _ m mem).2.2) (tidy.1 b)
    (fun m mem eq => eq ▸ tidy.2 m mem)
  obtain ⟨B₂, steps₂, abs₂⟩ := abs₁.tickProc laws bound (by rw [setCpu_cpus_self]; exact answered)
  rw [setCpu_setCpu] at abs₂
  rw [setCpu_cpus_self] at steps₂
  refine ⟨B₂, abs₂, (Block.Steps.mono steps₁ ?_).trans (Block.Steps.mono steps₂ ?_)⟩
  · rintro X e ⟨rfl, about, phase⟩
    refine ⟨.inl ⟨rfl, about, ?_⟩, nofun⟩
    rw [phase, abs.view i]
    exact (abs.inv.slots i).rest.symm
  · rintro X e ⟨rfl, event, proc⟩
    refine ⟨.inr (.inl ⟨abs₁, event, proc⟩), ?_⟩
    obtain ⟨m, a, -, -, -, ⟨⟨q, rfl⟩, -⟩ | ⟨rfl, -⟩⟩ := proc <;> nofun

theorem tick_advances (laws : PortLaws π R) (abs : Abs L R s σ b B) (tidy : Tidy R s σ (.tick i))
    (step : σ.step s (.tick i) = .ok σ') :
    ∃ B', Abs L R s σ' b B' ∧ Advance L R s σ (.tick i) b B B' := by
  simp only [System.step] at step
  split at step
  · next here =>
      obtain ⟨bound, -⟩ := here
      split at step
      · cases step
      · next n st result =>
          cases step
          unfold CpuNode.tick at result
          simp only at result
          split at result
          · cases result
          · next n₂ st₂ answered =>
              obtain ⟨B₂, abs₂, steps₂⟩ := abs.procHalf laws bound tidy.1 answered
              obtain ⟨B₃, steps₃, abs₃⟩ := abs₂.tickNtwk laws bound
                (by rw [setCpu_cpus_self]; exact tidy.2 _ _ _ answered)
                (by rw [setCpu_cpus_self]; exact result)
              rw [setCpu_setCpu] at abs₃
              have proc : Advance L R s σ (.tick i) b B B₂ :=
                .ofSlots steps₂ (fun _ _ => And.left) (fun _ _ => And.right)
              have ntwk : Advance L R s σ (.tick i) b B₂ B₃ := by
                refine .ofSlots steps₃ (fun X e meets => .inr (.inr meets.2.1)) ?_
                rintro X e ⟨-, takes, -⟩
                cases e <;> first
                  | exact takes.elim
                  | intro slot
                    cases slot
              exact ⟨B₃, abs₃.moved (fun _ => rfl) (fun _ _ _ => rfl) (fun _ _ => rfl) (fun _ => rfl)
                rfl (fun _ _ => id), proc.trans ntwk⟩
  · cases step

theorem external_advances (laws : PortLaws π R) (abs : Abs L R s σ b B) {event : π.Event}
    (tidy : Tidy R s σ (.external i event)) (step : σ.step s (.external i event) = .ok σ') :
    ∃ B', Abs L R s σ' b B' ∧ Advance L R s σ (.external i event) b B B' := by
  simp only [System.step] at step
  split at step
  · next here =>
      split at step
      · cases step
      · next p called =>
          cases step
          have sends : ∀ m ∈ p.sends, m.kind = .dataWb :=
            fun m mem => (laws.external_sends _ _ _ _ _ _ called m mem).2.2
          obtain ⟨B', steps, abs'⟩ := abs.portStep here.1 sends
            ((tidy p called).1 b) (fun m mem eq => eq ▸ (tidy p called).2 m mem)
          refine ⟨B', abs'.moved (fun _ => rfl) (fun _ _ _ => rfl) (fun _ _ => rfl) (fun _ => rfl) rfl
            (fun _ _ => id), .ofSlots steps ?_ ?_⟩
          · rintro X e ⟨eq, about, phase⟩
            refine ⟨p, called, eq, about, ?_⟩
            rw [phase, abs.view i]
            exact (abs.inv.slots i).rest.symm
          · rintro X e ⟨rfl, -⟩ slot
            cases slot
  · cases step

/-- Every action of the network moves every line by enabled events. -/
theorem step_advances (laws : PortLaws π R) (net : Network s σ) (small : s.numProcs ≤ kMaxSharers)
    {lines : BlockId → Block NodeId} (abs : ∀ b, Abs L R s σ b (lines b)) {a : Action π}
    (tidy : Tidy R s σ a) (step : σ.step s a = .ok σ') :
    ∃ lines' : BlockId → Block NodeId, ∀ b, Abs L R s σ' b (lines' b) ∧
      Advance L R s σ a b (lines b) (lines' b) := by
  cases a with
  | tick i => exact Classical.axiomOfChoice fun b => tick_advances laws (abs b) tidy step
  | external i event =>
      exact Classical.axiomOfChoice fun b => external_advances laws (abs b) tidy step
  | dirTick => exact dirTick_advances net small abs step
  | tock i => exact ⟨lines, fun b => ⟨(abs b).tock net laws step, .refl⟩⟩
  | deliver i => exact ⟨lines, fun b => ⟨(abs b).deliver net step, .refl⟩⟩
  | dirTock => exact ⟨lines, fun b => ⟨(abs b).dirTock step, .refl⟩⟩
  | dirDeliver src => exact ⟨lines, fun b => ⟨(abs b).dirDeliver net step, .refl⟩⟩

end Coherence
