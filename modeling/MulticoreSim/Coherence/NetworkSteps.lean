import MulticoreSim.Coherence.Simulation

/-! # The network's steps on abstract lines

Mailboxes and channels hand messages on without changing a line; each half of the
directory's cycle changes one.
-/

namespace Coherence

open DirectoryProtocol

variable {F : ProtocolFsm} {π : CpuPort} {L : Laws F} {R : π.State → BlockId → Prop} {s : Settings}
  {σ σ' : System F π} {b : BlockId} {B B' : Block NodeId} {i : NodeId}

/-! ## Messages handed on -/

/-- Only the places of messages differ. -/
theorem Abs.moved (abs : Abs L R s σ b B)
    (agents : ∀ j, (σ'.cpus j).agents = (σ.cpus j).agents)
    (upward : ∀ j < s.numProcs, ∀ k, about b (σ'.carried s j) k = about b (σ.carried s j) k)
    (downward : ∀ j < s.numProcs, orders b (σ'.arriving s j) = orders b (σ.arriving s j))
    (owes : ∀ j, σ'.dir.owes b j = σ.dir.owes b j)
    (directory : σ'.dir.directory b = σ.dir.directory b)
    (resident : ∀ j < s.numProcs, R (σ'.cpus j).cpu b → R (σ.cpus j).cpu b) :
    Abs L R s σ' b B where
  inv := abs.inv
  within := abs.within
  view j := by rw [agents]; exact abs.view j
  upward j bound k := (upward j bound k).trans (abs.upward j bound k)
  downward j bound := (downward j bound).trans (abs.downward j bound)
  fetching j g := by rw [owes]; exact abs.fetching j g
  entry := by rw [directory]; exact abs.entry
  resident j bound has := abs.resident j bound (resident j bound has)

theorem filter_dst {l : List Message} {n : NodeId} (heading : ∀ m ∈ l, m.dst = n) :
    l.filter (·.dst = n) = l :=
  List.filter_eq_self.mpr fun m mem => by simpa using heading m mem

theorem send_self (chan : NodeId → NodeId → List Message) (src : NodeId) (out : List Message)
    (dst : NodeId) : System.send chan src out src dst = chan src dst ++ out.filter (·.dst = dst) := by
  simp [System.send]

theorem send_of_ne (chan : NodeId → NodeId → List Message) {src j : NodeId} (out : List Message)
    (ne : j ≠ src) : System.send chan src out j = chan j := by
  simp [System.send, ne]

/-- `Node::tock` of a CPU node. -/
theorem Abs.tock (abs : Abs L R s σ b B) (net : Network s σ) (laws : PortLaws π R)
    (step : σ.step s (.tock i) = .ok σ') : Abs L R s σ' b B := by
  simp only [System.step] at step
  split at step
  · next here =>
      obtain ⟨bound, ticked⟩ := here
      cases step
      have ne : s.numProcs ≠ i := (ne_of_gt bound)
      obtain ⟨free, -⟩ := net.ticked i bound ticked
      refine abs.moved ?_ ?_ ?_ (fun _ => rfl) rfl ?_
      · intro j
        simp only [Function.update_apply]
        split
        · next eq => rw [eq]; rfl
        · rfl
      · intro j _ k
        simp only [System.carried, Function.update_apply]
        split
        · next eq =>
            subst j
            rw [send_self, filter_dst fun m mem => (net.out i m mem).2]
            simp only [CpuNode.tock, about_append, about_nil]
            omega
        · next other => rw [send_of_ne _ _ other]
      · intro j _
        simp only [System.arriving, Function.update_apply]
        rw [send_of_ne _ _ ne]
        split
        · next eq =>
            subst j
            simp [CpuNode.inbox, CpuNode.tock, free]
        · rfl
      · intro j _
        simp only [Function.update_apply]
        split
        · next eq => exact eq ▸ laws.tock _ _
        · exact id
  · cases step

/-- A message arrives in `ntwk_in_next`. -/
theorem Abs.deliver (abs : Abs L R s σ b B) (net : Network s σ)
    (step : σ.step s (.deliver i) = .ok σ') : Abs L R s σ' b B := by
  simp only [System.step] at step
  split at step
  · next here =>
      obtain ⟨bound, ticked, empty⟩ := here
      split at step
      · cases step
      · next m rest queue =>
          cases step
          refine abs.moved ?_ ?_ ?_ (fun _ => rfl) rfl ?_
          · intro j
            simp only [Function.update_apply]
            split
            · next eq => rw [eq]
            · rfl
          · intro j below k
            have ne : j ≠ s.numProcs := ne_of_lt below
            simp only [System.carried, Function.update_apply, ne, if_false]
            split
            · next eq => rw [eq]
            · rfl
          · intro j _
            simp only [System.arriving, Function.update_apply, if_true]
            split
            · next eq =>
                subst j
                simp [CpuNode.inbox, (net.ticked i bound ticked).1, empty, queue]
            · rfl
          · intro j _
            simp only [Function.update_apply]
            split
            · next eq => exact eq ▸ id
            · exact id
  · cases step

/-- `DirectoryController::tock` and the directory node's sending. -/
theorem Abs.dirTock (abs : Abs L R s σ b B) (step : σ.step s .dirTock = .ok σ') :
    Abs L R s σ' b B := by
  simp only [System.step] at step
  split at step
  · cases step
    refine abs.moved (fun _ => rfl) ?_ ?_ (fun _ => rfl) rfl (fun _ _ => id)
    · intro j below k
      simp only [System.carried, DirectoryController.tock]
      rw [send_of_ne _ _ (ne_of_lt below)]
      simp only [about_append, List.filter_append, List.nil_append]
      omega
    · intro j _
      simp only [System.arriving]
      rw [send_self]
      simp
  · cases step

/-- A message arrives in `request_next`. -/
theorem Abs.dirDeliver (abs : Abs L R s σ b B) (net : Network s σ) {src : NodeId}
    (step : σ.step s (.dirDeliver src) = .ok σ') : Abs L R s σ' b B := by
  simp only [System.step] at step
  split at step
  · next here =>
      split at step
      · cases step
      · next m rest queue =>
          cases step
          have from_src : m.src = src := net.sent src here.1 m (by simp [queue])
          refine abs.moved (fun _ => rfl) ?_ ?_ (fun _ => rfl) rfl (fun _ _ => id)
          · intro j below k
            simp only [System.carried, Function.update_apply]
            by_cases eq : j = src
            · subst j
              simp only [if_true, Function.update_self, queue, List.filter_append, List.filter_cons,
                from_src, about_append, List.filter_nil, decide_true, about_cons, about_nil]
              omega
            · simp only [if_neg eq, List.filter_append, List.filter_cons, from_src, about_append,
                List.filter_nil, Ne.symm eq, decide_false, Bool.false_eq_true, if_false, about_nil]
              omega
          · intro j _
            simp only [System.arriving, Function.update_apply]
            rw [if_neg (ne_of_gt here.1)]
  · cases step

/-! ## The directory -/

/-- The directory has acted on the line. -/
theorem Abs.directed (abs : Abs L R s σ b B) (cpus : σ'.cpus = σ.cpus) (inv : B'.Inv)
    (within : L.profile.Within B') {taken : NodeId → List MessageKind}
    {sent : NodeId → List (MessageKind × Bool)} {fetch : NodeId → Option Grant}
    (moves : ∀ j, Moves (B.slot j) (B'.slot j) (taken j) (sent j) (fetch j))
    (upward : ∀ j < s.numProcs, ∀ k,
      about b (σ.carried s j) k = about b (σ'.carried s j) k + (taken j).count k)
    (downward : ∀ j < s.numProcs, orders b (σ'.arriving s j) = orders b (σ.arriving s j) ++ sent j)
    (owes : ∀ j, σ'.dir.owes b j = fetch j)
    (entry : Entry L.profile L.marks s.numProcs b (σ'.dir.directory b) B') :
    Abs L R s σ' b B' where
  inv := inv
  within := within
  view j := by
    rw [cpus, (moves j).right, (moves j).want]
    exact abs.view j
  upward j bound k := by
    have old := abs.upward j bound k
    have new := upward j bound k
    have change := (moves j).upward k
    omega
  downward j bound := by rw [downward j bound, abs.downward j bound, (moves j).downward]
  fetching j g := by rw [owes, (moves j).fetching]
  entry := entry
  resident j bound has := by
    rw [(moves j).resident]
    exact abs.resident j bound (cpus ▸ has)

theorem Abs.quiet (abs : Abs L R s σ b B) (free : σ.dir.requestInProgress = false) : B.Quiet := by
  intro j g fetching
  have owed := (abs.fetching j g).mp fetching
  simp [DirectoryController.owes, free] at owed

section

variable {d : DirectoryController} {st : CoherenceStats} {r : Message} {rest : List Message}
  {o : Outcome}

theorem scheduleDataResponse_fields (d : DirectoryController) (s : Settings) (st : CoherenceStats)
    (block : BlockId) (target : NodeId) :
    ∃ lls delay miss, (d.scheduleDataResponse s st block target).1 =
      { d with lls := lls }.latch block target delay miss := by
  unfold DirectoryController.scheduleDataResponse
  cases s.cacheMode with
  | privateL2 => exact ⟨d.lls, _, _, rfl⟩
  | sharedLls =>
      simp only
      split <;> exact ⟨_, _, _, rfl⟩

/-- What carrying an outcome out leaves. -/
theorem carryOut_fields (d : DirectoryController) (s : Settings) (st : CoherenceStats) (r : Message)
    (rest : List Message) (o : Outcome) :
    let d' := (d.carryOut s st r rest o).1
    d'.directory = Function.update d.directory r.block o.entry ∧ d'.requestQueue = rest ∧
      d'.requestNext = (if o.cycled then d.requestNext ++ [r] else d.requestNext) ∧
      d'.ntwkOutNext = d.ntwkOutNext ++ o.sends.map (DirectoryController.request s) ∧
      d'.sendE = (d.sendE || o.sendE) ∧
      (o.schedule = none → d'.requestInProgress = d.requestInProgress) ∧
      (∀ x, o.schedule = some x →
        d'.requestInProgress = true ∧ d'.tagToSend = x.1 ∧ d'.targetNode = x.2) := by
  simp only [DirectoryController.carryOut]
  cases schedule : o.schedule with
  | none => simp
  | some x =>
      obtain ⟨lls, delay, miss, eq⟩ := scheduleDataResponse_fields
        { d with
          directory := Function.update d.directory r.block o.entry
          requestQueue := rest
          requestNext := if o.cycled then d.requestNext ++ [r] else d.requestNext
          ntwkOutNext := d.ntwkOutNext ++ o.sends.map (DirectoryController.request s)
          sendE := d.sendE || o.sendE } s (o.stats st) x.1 x.2
      simp only [eq, DirectoryController.latch]
      simp

theorem orders_requests (b : BlockId) (s : Settings) (sends : List Send) (j : NodeId) :
    orders b ((sends.map (DirectoryController.request s)).filter (·.dst = j)) =
      addressed j ((sends.filter (·.tag = b)).map fun x => (x.dest, x.kind, x.dirty)) := by
  induction sends with
  | nil => rfl
  | cons x sends ih =>
      rw [List.map_cons, List.filter_cons, List.filter_cons]
      by_cases dst : x.dest = j <;> by_cases tag : x.tag = b <;>
        simp [DirectoryController.request, dst, tag, orders_cons, addressed_cons, ih]

/-- The message at the head of the queue, and what it says about its line. -/
theorem Abs.meets (abs : Abs L R s σ r.block B) (net : Network s σ)
    (small : s.numProcs ≤ kMaxSharers) (free : σ.dir.requestInProgress = false)
    (queue : σ.dir.requestQueue = r :: rest) :
    Meets L.profile L.marks s.numProcs r.block (σ.dir.directory r.block) B r where
  inv := abs.inv
  within := abs.within
  entry := abs.entry
  quiet := abs.quiet free
  small := small
  block := rfl
  src := net.queued r (by simp [queue])
  here := by
    have bound := net.queued r (by simp [queue])
    rw [← abs.upward r.src bound]
    exact about_pos.mpr ⟨r, by simp [System.carried, queue], rfl, rfl⟩

/-- An outcome carried out, seen from the block it is about. -/
theorem Abs.carryOut (abs : Abs L R s σ r.block B) (net : Network s σ)
    (free : σ.dir.requestInProgress = false) (queue : σ.dir.requestQueue = r :: rest)
    {starved wild : Prop}
    (refines : Refines L.profile L.marks s.numProcs r.block starved wild B r o B')
    (st : CoherenceStats) :
    Abs L R s { σ with dir := (σ.dir.carryOut s st r rest o).1 } r.block B' := by
  obtain ⟨directory, queue', next, out, sendE, idle, latched⟩ :=
    carryOut_fields σ.dir s st r rest o
  have chosen : ∀ X e, Legal L.profile starved wild B r X e → L.profile.Event e :=
    fun _ _ legal => legal.1
  refine abs.directed rfl (refines.steps.inv abs.inv) (refines.steps.within chosen abs.within)
    refines.moves ?_ ?_ ?_ ?_
  · intro j _ k
    simp only [System.carried, queue', next, queue, Outcome.taken, List.filter_append,
      List.filter_cons, about_append]
    by_cases from_j : r.src = j <;> cases o.cycled <;>
      simp [from_j, about_cons, addressed_cons] <;> omega
  · intro j _
    simp only [System.arriving, out, List.filter_append, orders_append, List.append_assoc]
    have all : o.sends.filter (·.tag = r.block) = o.sends :=
      List.filter_eq_self.mpr fun x mem => by simpa using refines.tags x mem
    rw [orders_requests, all]
    rfl
  · intro j
    unfold DirectoryController.owes Outcome.fetch
    cases schedule : o.schedule with
    | none =>
        rw [if_neg]
        simp [idle schedule, free]
    | some x =>
        obtain ⟨busy, tag, target⟩ := latched x schedule
        rw [busy, tag, target, refines.scheduled x schedule, sendE, net.sendE free]
        simp
  · rw [directory, Function.update_self]
    exact refines.entry

/-- An outcome carried out, seen from another block. -/
theorem Abs.carryOut_other (abs : Abs L R s σ b B) (ne : r.block ≠ b)
    (free : σ.dir.requestInProgress = false) (queue : σ.dir.requestQueue = r :: rest)
    (tags : ∀ x ∈ o.sends, x.tag = r.block) (scheduled : ∀ x, o.schedule = some x → x.1 = r.block)
    (st : CoherenceStats) :
    Abs L R s { σ with dir := (σ.dir.carryOut s st r rest o).1 } b B := by
  obtain ⟨directory, queue', next, out, -, idle, latched⟩ := carryOut_fields σ.dir s st r rest o
  refine abs.moved (fun _ => rfl) ?_ ?_ ?_ ?_ (fun _ _ => id)
  · intro j _ k
    simp only [System.carried, queue', next, queue, List.filter_append, List.filter_cons,
      about_append]
    by_cases from_j : r.src = j <;> cases o.cycled <;>
      simp [from_j, about_cons, ne]
  · intro j _
    simp only [System.arriving, out, List.filter_append, orders_append]
    have none : o.sends.filter (·.tag = b) = [] :=
      List.filter_eq_nil_iff.mpr fun x mem => by simp [tags x mem, ne]
    rw [orders_requests, none]
    simp
  · intro j
    unfold DirectoryController.owes
    rw [if_neg, if_neg]
    · simp [free]
    · cases schedule : o.schedule with
      | none => simp [idle schedule, free]
      | some x => simp [(latched x schedule).2.1, scheduled x schedule, ne]
  · rw [directory, Function.update_of_ne ne.symm]

end

end Coherence
