import MulticoreSim.Coherence.FiciCpu
import MulticoreSim.Coherence.DirectoryEntry
import Mathlib.Data.Finset.Card
import Mathlib.Data.Finset.Dedup

/-! # Blocks of one CPU

What the accesses of a trace make of a block that no other CPU touches, and what
each protocol does on the three requests that are left then: a first load, a
first store, and the store to a block that was only read.
-/

namespace Coherence

/-! ## What a CPU holds -/

/-- What a CPU may do with a block that is its own. -/
inductive Hold where
  | nothing | read | write
  deriving DecidableEq, Repr

/-- The requests that are left when nobody else is there. -/
inductive Need where
  | load | store | raise
  deriving DecidableEq, Repr

/-- How a protocol goes about private blocks. -/
structure Manner where
  /-- A first load asks for a copy to read; in MI it asks for all. -/
  reads : Bool
  /-- Who reads alone may upgrade silently. -/
  clean : Bool
  deriving DecidableEq, Repr

/-- What a hold lacks for a LOAD or a STORE. -/
def Hold.lacks : Hold → MessageKind → Option Need
  | .nothing, .load => some .load
  | .nothing, _ => some .store
  | .read, .load => none
  | .read, _ => some .raise
  | .write, _ => none

/-- The hold a need arises from. -/
def Need.short : Need → Hold
  | .load | .store => .nothing
  | .raise => .read

theorem Hold.short_of_lacks {h : Hold} {k : MessageKind} {need : Need}
    (lacks : h.lacks k = some need) : need.short = h := by
  cases h <;> cases k <;> cases lacks <;> rfl

/-- What is only read is raised by a STORE. -/
theorem Hold.lacks_raise {h : Hold} {k : MessageKind} {need : Need} (two : k = .load ∨ k = .store)
    (lacks : h.lacks k = some need) : need = .raise ↔ h = .read ∧ k = .store := by
  rcases two with rfl | rfl <;> cases h <;> cases lacks <;> simp

namespace Manner

/-- The hold a request leads to. -/
def gains (P : Manner) : Need → Hold
  | .load => if P.reads then .read else .write
  | .store | .raise => .write

def request (P : Manner) : Need → MessageKind
  | .load => if P.reads then .gets else .getm
  | .store => .getm
  | .raise => if P.clean then .getx else .getm

theorem request_ne (P : Manner) (need : Need) : P.request need ≠ .dataWb := by
  unfold request
  cases need with
  | load => cases P.reads <;> nofun
  | store => nofun
  | raise => cases P.clean <;> nofun

def reply (P : Manner) : Need → MessageKind
  | .load => if P.clean then .dataE else .data
  | .store => .data
  | .raise => .ack

/-- Memory's answer to a first request: DATA_E for a clean copy. -/
theorem reply_first (P : Manner) {need : Need} (first : need ≠ .raise) :
    P.reply need = if P.reply need = .dataE then .dataE else .data := by
  cases need with
  | load => cases clean : P.clean <;> simp [reply, clean]
  | store => rfl
  | raise => exact absurd rfl first

theorem clean_of_reply {P : Manner} {need : Need} (reply : P.reply need = .dataE) : P.clean = true := by
  cases need with
  | load =>
      by_contra unclean
      simp [Manner.reply, unclean] at reply
  | store | raise => cases reply

/-- The hold after one more access. -/
def next (P : Manner) (h : Hold) (k : MessageKind) : Hold := ((h.lacks k).map P.gains).getD h

/-- The hold on a block after the accesses to it. -/
def after (P : Manner) (kinds : List MessageKind) : Hold := kinds.foldl P.next .nothing

@[simp] theorem after_snoc (P : Manner) (kinds : List MessageKind) (k : MessageKind) :
    P.after (kinds ++ [k]) = P.next (P.after kinds) k := List.foldl_append

end Manner

/-! ## Accesses of a trace -/

section

variable (s : Settings)

/-- The accesses of a trace to one block. -/
def accesses (l : List Instruction) (b : BlockId) : List MessageKind :=
  (l.filter (·.block s = b)).map (·.kind)

/-- The blocks of a trace. -/
def touched (l : List Instruction) : Finset BlockId := (l.map (·.block s)).toFinset

/-- The first access is a load, and a store comes later. -/
def FirstReadLaterWritten : List MessageKind → Prop
  | [] => False
  | k :: rest => k = .load ∧ .store ∈ rest

instance (kinds : List MessageKind) : Decidable (FirstReadLaterWritten kinds) := by
  unfold FirstReadLaterWritten
  split <;> infer_instance

/-- The blocks of a trace that are first read and later written. -/
def raised (l : List Instruction) : Finset BlockId :=
  (touched s l).filter fun b => FirstReadLaterWritten (accesses s l b)

variable {s} {l : List Instruction} {x : Instruction} {b : BlockId}

theorem accesses_snoc : accesses s (l ++ [x]) b =
    if x.block s = b then accesses s l b ++ [x.kind] else accesses s l b := by
  simp only [accesses, List.filter_append, List.filter_cons, List.filter_nil, List.map_append]
  split <;> simp_all

theorem mem_touched : b ∈ touched s l ↔ accesses s l b ≠ [] := by
  simp [touched, accesses, List.filter_eq_nil_iff]

theorem touched_snoc : touched s (l ++ [x]) = insert (x.block s) (touched s l) := by
  ext b
  simp [touched, eq_comm]

theorem Instruction.kind_or (x : Instruction) : x.kind = .load ∨ x.kind = .store := by
  unfold Instruction.kind
  split
  · exact .inl rfl
  · exact .inr rfl

/-- Every access of a trace is a LOAD or a STORE. -/
theorem accesses_kinds : ∀ k ∈ accesses s l b, k = .load ∨ k = .store := by
  intro k mem
  obtain ⟨x, -, rfl⟩ := List.mem_map.mp mem
  exact x.kind_or

end

/-! ## Holds along a trace -/

namespace Manner

variable {P : Manner} {kinds : List MessageKind} {k : MessageKind} {s : Settings}
  {l : List Instruction} {x : Instruction} {b : BlockId}

theorem gains_some (P : Manner) (n : Need) : P.gains n ≠ .nothing := by
  unfold gains
  cases n with
  | load => cases P.reads <;> nofun
  | store | raise => nofun

theorem next_of_hit (P : Manner) {h : Hold} (hit : h.lacks k = none) : P.next h k = h := by
  rw [next, hit]
  rfl

theorem next_of_need (P : Manner) {h : Hold} {need : Need} (lacks : h.lacks k = some need) :
    P.next h k = P.gains need := by
  rw [next, lacks]
  rfl

theorem next_some (P : Manner) (h : Hold) (k : MessageKind) : P.next h k ≠ .nothing := by
  unfold next
  cases lacks : h.lacks k with
  | some n => exact P.gains_some n
  | none =>
      rintro rfl
      cases k <;> cases lacks

/-- Nothing is held before the first access only. -/
theorem after_nothing : P.after kinds = .nothing ↔ kinds = [] := by
  cases kinds using List.reverseRecOn with
  | nil => exact ⟨fun _ => rfl, fun _ => rfl⟩
  | append_singleton kinds k =>
      simp only [after_snoc, List.append_eq_nil_iff, List.cons_ne_self, and_false, iff_false]
      exact P.next_some _ k

/-- A block is held for reading while it has only been loaded. -/
theorem after_read (reads : P.reads = true) :
    P.after kinds = .read ↔ kinds ≠ [] ∧ ∀ k ∈ kinds, k = .load := by
  induction kinds using List.reverseRecOn with
  | nil => simp [after]
  | append_singleton kinds k ih =>
      simp only [after_snoc, next, Hold.lacks]
      cases held : P.after kinds with
      | nothing =>
          have none := after_nothing.mp held
          subst none
          cases k <;> simp [gains, reads]
      | read =>
          have loads := (ih.mp held).2
          have some := (ih.mp held).1
          cases k with
          | load => simpa [or_imp, forall_and, some] using loads
          | _ => simp [gains]
      | write =>
          have other : ¬ (kinds ≠ [] ∧ ∀ k ∈ kinds, k = .load) := by
            rw [← ih, held]
            nofun
          have some : kinds ≠ [] := by
            rintro rfl
            cases held
          simp only [some, ne_eq, not_false_iff, true_and, not_forall] at other
          obtain ⟨k', mem, store⟩ := other
          simp only [Option.map_none, Option.getD_none, reduceCtorEq, false_iff, not_and, not_forall]
          exact fun _ => ⟨k', List.mem_append_left _ mem, store⟩

/-- Without copies to read nothing is held for reading. -/
theorem after_unread (unread : P.reads = false) : P.after kinds ≠ .read := by
  induction kinds using List.reverseRecOn with
  | nil => nofun
  | append_singleton kinds k ih =>
      rw [after_snoc]
      cases held : P.after kinds with
      | read => exact absurd held ih
      | nothing | write => cases k <;> simp [next, Hold.lacks, gains, unread]

/-- A store raises a block that has only been loaded. -/
theorem firstRead_snoc (reads : P.reads = true) (two : ∀ k ∈ kinds, k = .load ∨ k = .store)
    (k : MessageKind) : FirstReadLaterWritten (kinds ++ [k]) ↔
      FirstReadLaterWritten kinds ∨ P.after kinds = .read ∧ k = .store := by
  rw [after_read reads]
  cases kinds with
  | nil => simp [FirstReadLaterWritten]
  | cons k' rest =>
      simp only [FirstReadLaterWritten, List.cons_append, List.mem_append, List.mem_cons,
        List.not_mem_nil, or_false, ne_eq, reduceCtorEq, not_false_iff, true_and, forall_eq_or_imp]
      constructor
      · rintro ⟨first, old | new⟩
        · exact .inl ⟨first, old⟩
        · by_cases old : .store ∈ rest
          · exact .inl ⟨first, old⟩
          · refine .inr ⟨⟨first, fun k mem => ?_⟩, new.symm⟩
            refine (two k (List.mem_cons_of_mem _ mem)).resolve_right ?_
            rintro rfl
            exact old mem
      · rintro (⟨first, old⟩ | ⟨⟨first, -⟩, new⟩)
        · exact ⟨first, .inl old⟩
        · exact ⟨first, .inr new.symm⟩

/-- The hold on a block after the accesses of a trace. -/
def hold (P : Manner) (s : Settings) (l : List Instruction) (b : BlockId) : Hold :=
  P.after (accesses s l b)

theorem hold_snoc : P.hold s (l ++ [x]) b =
    if b = x.block s then P.next (P.hold s l b) x.kind else P.hold s l b := by
  simp only [hold, accesses_snoc, eq_comm]
  split
  · exact after_snoc _ _ _
  · rfl

theorem hold_nothing : P.hold s l b = .nothing ↔ b ∉ touched s l := by
  rw [hold, after_nothing, mem_touched, not_not]

/-- A block is counted when it is first accessed. -/
theorem card_touched_snoc (P : Manner) : (touched s (l ++ [x])).card =
    (touched s l).card + if P.hold s l (x.block s) = .nothing then 1 else 0 := by
  rw [touched_snoc]
  split
  · next fresh => exact Finset.card_insert_of_notMem (hold_nothing.mp fresh)
  · next old =>
      rw [Finset.insert_eq_of_mem (not_not.mp (mt hold_nothing.mpr old)), Nat.add_zero]

/-- A block is counted as raised when it is first stored to. -/
theorem card_raised_snoc (reads : P.reads = true) : (raised s (l ++ [x])).card =
    (raised s l).card +
      if P.hold s l (x.block s) = .read ∧ x.kind = .store then 1 else 0 := by
  have mem (b : BlockId) : b ∈ raised s (l ++ [x]) ↔
      b ∈ raised s l ∨ b = x.block s ∧ P.hold s l b = .read ∧ x.kind = .store := by
    have touch {kinds : List MessageKind} (first : FirstReadLaterWritten kinds) : kinds ≠ [] := by
      rintro rfl
      exact first
    have firsts (l : List Instruction) :
        b ∈ raised s l ↔ FirstReadLaterWritten (accesses s l b) := by
      simp only [raised, Finset.mem_filter, mem_touched]
      exact and_iff_right_of_imp touch
    rw [firsts, firsts, accesses_snoc]
    split
    · next eq =>
        rw [firstRead_snoc reads accesses_kinds]
        simp [hold, eq]
    · next ne => simp [Ne.symm ne]
  split
  · next raises =>
      have fresh : x.block s ∉ raised s l := by
        intro old
        have first := (Finset.mem_filter.mp old).2
        have loads := ((after_read reads).mp raises.1).2
        revert first loads
        cases accesses s l (x.block s) with
        | nil => exact fun first => first.elim
        | cons k rest =>
            rintro ⟨-, store⟩ loads
            cases loads _ (List.mem_cons_of_mem _ store)
      have grown : raised s (l ++ [x]) = insert (x.block s) (raised s l) := by
        ext b
        rw [mem, Finset.mem_insert]
        constructor
        · rintro (old | ⟨rfl, -⟩)
          · exact .inr old
          · exact .inl rfl
        · rintro (rfl | old)
          · exact .inr ⟨rfl, raises⟩
          · exact .inl old
      rw [grown, Finset.card_insert_of_notMem fresh]
  · next other =>
      have same : raised s (l ++ [x]) = raised s l := by
        ext b
        rw [mem]
        refine or_iff_left ?_
        rintro ⟨rfl, raises⟩
        exact other raises
      rw [same, Nat.add_zero]

end Manner

/-! ## What the protocols do -/

/-- The directory's entry for a block of CPU `i`. -/
structure OwnEntry (entry : Hold → DirState) (n : Nat) (i : NodeId) (b : BlockId) (e : DirEntry)
    (h : Hold) : Prop where
  state : e.state = entry h
  blockId : e.blockId = b
  members : Members n e.presence e.activeSharers (if h = .nothing then ∅ else {i})

/-- A request for a CPU's own block is taken up: memory is asked the first time, and the
    directory answers itself from then on. -/
structure TakesUp (P : Manner) (entry : Hold → DirState) (n : Nat) (r : Message) (need : Need)
    (o : Outcome) : Prop where
  entry : OwnEntry entry n r.src r.block o.entry (P.gains need)
  cycled : o.cycled = false
  sends : o.sends =
    if need = .raise then [{ dest := r.src, tag := r.block, kind := .ack }] else []
  schedule : o.schedule = if need = .raise then none else some (r.block, r.src)
  sendE : o.sendE = (P.reply need == .dataE)
  stats : o.stats =
    if need = .raise ∧ P.clean = true then
      fun st => { st with silentUpgrades := st.silentUpgrades + 1 }
    else id

/-- What a protocol makes of private blocks. -/
structure Own (F : ProtocolFsm) where
  manner : Manner
  rest : Hold → F.AgentState
  wait : Need → F.AgentState
  entry : Hold → DirState
  clean_reads : manner.clean = true → manner.reads = true
  usesE : manner.clean = true → F.usesE = true
  initial : F.initial = rest .nothing
  none : entry .nothing = .I
  taken : ∀ need, entry (manner.gains need) ≠ .I
  asks : ∀ h k need, h.lacks k = some need → (need = .raise → manner.reads = true) →
    k = .load ∨ k = .store → F.processProcRequest (rest h) k =
      .ok { state := wait need, toDir := some (manner.request need), miss := need != .raise }
  hits : ∀ h k, h.lacks k = .none → (h = .read → manner.reads = true) → k = .load ∨ k = .store →
    F.processProcRequest (rest h) k = .ok { state := rest h, toProc := true }
  accepts : ∀ need, (need = .raise → manner.reads = true) →
    F.processNtwkRequest (wait need) (manner.reply need) = .ok (acceptGrant (rest (manner.gains need)))
  takesUp : ∀ (s : Settings) (e : DirEntry) (r : Message) (need : Need),
    s.numProcs ≤ kMaxSharers → r.src < s.numProcs →
    OwnEntry entry s.numProcs r.src r.block e need.short → (need = .raise → manner.reads = true) →
    r.kind = manner.request need →
    ∃ o, F.handle s e r = .ok o ∧ TakesUp manner entry s.numProcs r need o

section

variable {P : Manner} {entry : Hold → DirState} {n : Nat} {i : NodeId} {b : BlockId} {e : DirEntry}
  {r : Message} {h : Hold}

theorem OwnEntry.members_of_some (own : OwnEntry entry n i b e h) (some : h ≠ .nothing) :
    Members n e.presence e.activeSharers {i} := by
  have members := own.members
  rwa [if_neg some] at members

/-- The state changes, the member stays. -/
theorem OwnEntry.keep (own : OwnEntry entry n i b e .read) {e' : DirEntry} {h : Hold}
    (state : e'.state = entry h) (blockId : e'.blockId = e.blockId) (presence : e'.presence = e.presence)
    (activeSharers : e'.activeSharers = e.activeSharers) (some : h ≠ .nothing) :
    OwnEntry entry n i b e' h where
  state := state
  blockId := blockId.trans own.blockId
  members := by
    rw [if_neg some, presence, activeSharers]
    exact own.members_of_some nofun

/-- Nobody is present yet. -/
theorem OwnEntry.absent (own : OwnEntry entry n i b e .nothing) (j : NodeId) :
    e.presence j = false := by
  have members : Members n e.presence e.activeSharers ∅ := own.members
  simpa using members.presence j

/-- Nobody else is present. -/
theorem OwnEntry.alone (own : OwnEntry entry n i b e .read) {bound : Nat} (le : n ≤ bound) :
    e.presentExcept bound (fun j => j ≠ i) = [] := by
  refine List.eq_nil_iff_forall_not_mem.mpr fun j mem => ?_
  have here := ((own.members_of_some nofun).mem_presentExcept le _ j).mp mem
  simp at here

/-- Memory is asked for the first member. -/
theorem OwnEntry.first (own : OwnEntry entry n r.src r.block e .nothing) (small : n ≤ kMaxSharers)
    (bound : r.src < n) {need : Need} {e' : DirEntry} (state : e'.state = entry (P.gains need))
    (blockId : e'.blockId = e.blockId) (presence : e'.presence = (e.addPresence r.src).presence)
    (activeSharers : e'.activeSharers = (e.addPresence r.src).activeSharers) :
    OwnEntry entry n r.src r.block e' (P.gains need) where
  state := state
  blockId := blockId.trans own.blockId
  members := by
    have members : Members n e.presence e.activeSharers ∅ := own.members
    have first := members.add small bound (Finset.notMem_empty r.src)
    rw [if_neg (P.gains_some need), presence, activeSharers]
    exact first

/-- A first request leads to memory. -/
theorem OwnEntry.granted (own : OwnEntry entry n r.src r.block e .nothing) (small : n ≤ kMaxSharers)
    (bound : r.src < n) (need : Need) (new : need ≠ .raise) {next : DirState}
    (state : next = entry (P.gains need)) (data : P.reply need ≠ .dataE) :
    TakesUp P entry n r need (Outcome.memoryGrant e r next) where
  entry := own.first small bound state rfl rfl rfl
  cycled := rfl
  sends := by rw [if_neg new]; rfl
  schedule := by rw [if_neg new]; rfl
  sendE := (beq_eq_false_iff_ne.mpr data).symm
  stats := by rw [if_neg (mt And.left new)]; rfl

/-- As `granted`, with DATA_E. -/
theorem OwnEntry.grantedE (own : OwnEntry entry n r.src r.block e .nothing) (small : n ≤ kMaxSharers)
    (bound : r.src < n) (need : Need) (new : need ≠ .raise) (state : .E = entry (P.gains need))
    (dataE : P.reply need = .dataE) : TakesUp P entry n r need (Outcome.memoryGrantE e r) where
  entry := own.first small bound state rfl rfl rfl
  cycled := rfl
  sends := by rw [if_neg new]; rfl
  schedule := by rw [if_neg new]; rfl
  sendE := by rw [dataE]; rfl
  stats := by rw [if_neg (mt And.left new)]; rfl

/-- A reader alone is acknowledged at once. -/
theorem OwnEntry.raised (own : OwnEntry entry n r.src r.block e .read) {o : Outcome}
    (state : o.entry.state = entry .write) (blockId : o.entry.blockId = e.blockId)
    (presence : o.entry.presence = e.presence) (activeSharers : o.entry.activeSharers = e.activeSharers)
    (sends : o.sends = [{ dest := r.src, tag := r.block, kind := .ack }]) (schedule : o.schedule = none)
    (sendE : o.sendE = false) (cycled : o.cycled = false)
    (stats : o.stats =
      if P.clean = true then fun st => { st with silentUpgrades := st.silentUpgrades + 1 } else id) :
    TakesUp P entry n r .raise o where
  entry := own.keep state blockId presence activeSharers nofun
  cycled := cycled
  sends := sends
  schedule := schedule
  sendE := sendE
  stats := by simpa using stats

end

/-! ## The five protocols -/

/-- The entry of a block that is read in state `S`, or in `E`. -/
def ownEntry (read : DirState) : Hold → DirState
  | .nothing => .I
  | .read => read
  | .write => .M

def miOwn : Own mi where
  manner := { reads := false, clean := false }
  rest
    | .nothing => .I
    | .read | .write => .M
  wait _ := .IM
  entry := ownEntry .M
  clean_reads := nofun
  usesE := nofun
  initial := rfl
  none := rfl
  taken need := by cases need <;> nofun
  asks h k need lacks reads kind := by
    rcases kind with rfl | rfl <;> cases h <;> cases lacks <;> first | rfl | cases reads rfl
  hits h k lacks reads kind := by
    rcases kind with rfl | rfl <;> cases h <;> cases lacks <;> rfl
  accepts need reads := by cases need <;> first | rfl | cases reads rfl
  takesUp s e r need small bound own reads kind := by
    cases need with
    | raise => cases reads rfl
    | load | store =>
        have state : e.state = .I := own.state
        have kind : r.kind = .getm := kind
        refine ⟨.memoryGrant e r .M, by simp only [mi, miHandle, state, kind], ?_⟩
        exact own.granted small bound _ (by decide) rfl (by decide)

def msiOwn : Own msi where
  manner := { reads := true, clean := false }
  rest
    | .nothing => .I
    | .read => .S
    | .write => .M
  wait
    | .load => .IS
    | .store => .IM
    | .raise => .SM
  entry := ownEntry .S
  clean_reads := nofun
  usesE := nofun
  initial := rfl
  none := rfl
  taken need := by cases need <;> nofun
  asks h k need lacks reads kind := by
    rcases kind with rfl | rfl <;> cases h <;> cases lacks <;> rfl
  hits h k lacks reads kind := by
    rcases kind with rfl | rfl <;> cases h <;> cases lacks <;> rfl
  accepts need reads := by cases need <;> rfl
  takesUp s e r need small bound own reads kind := by
    cases need with
    | load =>
        have state : e.state = .I := own.state
        have kind : r.kind = .gets := kind
        refine ⟨_, by simp only [msi, msiHandle, state, kind]; rfl, ?_, rfl, rfl, rfl, rfl, rfl⟩
        refine own.first small bound (ensurePresence_state _ _) ?_ ?_ ?_
        all_goals simp [DirEntry.ensurePresence, DirEntry.addPresence, own.absent, own.blockId]
    | store =>
        have state : e.state = .I := own.state
        have kind : r.kind = .getm := kind
        refine ⟨_, by simp only [msi, msiHandle, state, kind]; rfl, ?_, rfl, rfl, rfl, rfl, rfl⟩
        refine own.first small bound (ensurePresence_state _ _) ?_ ?_ ?_
        all_goals simp [DirEntry.ensurePresence, DirEntry.addPresence, own.absent, own.blockId]
    | raise =>
        have state : e.state = .S := own.state
        have kind : r.kind = .getm := kind
        refine ⟨_, by simp only [msi, msiHandle, state, kind, own.alone small]; rfl, ?_⟩
        exact own.raised rfl rfl rfl rfl (by rw [own.blockId]) rfl rfl rfl rfl

def mesiOwn : Own mesi where
  manner := { reads := true, clean := true }
  rest
    | .nothing => .I
    | .read => .E
    | .write => .M
  wait
    | .load => .IS
    | .store => .IM
    | .raise => .EM
  entry := ownEntry .E
  clean_reads _ := rfl
  usesE _ := rfl
  initial := rfl
  none := rfl
  taken need := by cases need <;> nofun
  asks h k need lacks reads kind := by
    rcases kind with rfl | rfl <;> cases h <;> cases lacks <;> rfl
  hits h k lacks reads kind := by
    rcases kind with rfl | rfl <;> cases h <;> cases lacks <;> rfl
  accepts need reads := by cases need <;> rfl
  takesUp s e r need small bound own reads kind := by
    cases need with
    | load =>
        have state : e.state = .I := own.state
        have kind : r.kind = .gets := kind
        exact ⟨.memoryGrantE e r, by simp only [mesi, mesiHandle, state, kind],
          own.grantedE small bound _ (by decide) rfl rfl⟩
    | store =>
        have state : e.state = .I := own.state
        have kind : r.kind = .getm := kind
        exact ⟨.memoryGrant e r .M, by simp only [mesi, mesiHandle, state, kind],
          own.granted small bound _ (by decide) rfl (by decide)⟩
    | raise =>
        have state : e.state = .E := own.state
        have kind : r.kind = .getx := kind
        exact ⟨.silentUpgrade e r, by simp only [mesi, mesiHandle, state, kind],
          own.raised rfl rfl rfl rfl rfl rfl rfl rfl rfl⟩

def mosiOwn : Own mosi where
  manner := { reads := true, clean := false }
  rest
    | .nothing => .I
    | .read => .S
    | .write => .M
  wait
    | .load => .IS
    | .store => .IM
    | .raise => .SM
  entry := ownEntry .S
  clean_reads := nofun
  usesE := nofun
  initial := rfl
  none := rfl
  taken need := by cases need <;> nofun
  asks h k need lacks reads kind := by
    rcases kind with rfl | rfl <;> cases h <;> cases lacks <;> rfl
  hits h k lacks reads kind := by
    rcases kind with rfl | rfl <;> cases h <;> cases lacks <;> rfl
  accepts need reads := by cases need <;> rfl
  takesUp s e r need small bound own reads kind := by
    cases need with
    | load =>
        have state : e.state = .I := own.state
        have kind : r.kind = .gets := kind
        exact ⟨.memoryGrant e r .S, by simp only [mosi, mosiHandle, state, kind],
          own.granted small bound _ (by decide) rfl (by decide)⟩
    | store =>
        have state : e.state = .I := own.state
        have kind : r.kind = .getm := kind
        exact ⟨.memoryGrant e r .M, by simp only [mosi, mosiHandle, state, kind],
          own.granted small bound _ (by decide) rfl (by decide)⟩
    | raise =>
        have state : e.state = .S := own.state
        have kind : r.kind = .getm := kind
        refine ⟨_, by simp only [mosi, mosiHandle, state, kind, own.alone le_rfl]; rfl, ?_⟩
        exact own.raised rfl rfl rfl rfl rfl rfl rfl rfl rfl

def moesifOwn : Own moesif where
  manner := { reads := true, clean := true }
  rest
    | .nothing => .I
    | .read => .E
    | .write => .M
  wait
    | .load => .IS
    | .store => .IM
    | .raise => .EM
  entry := ownEntry .E
  clean_reads _ := rfl
  usesE _ := rfl
  initial := rfl
  none := rfl
  taken need := by cases need <;> nofun
  asks h k need lacks reads kind := by
    rcases kind with rfl | rfl <;> cases h <;> cases lacks <;> rfl
  hits h k lacks reads kind := by
    rcases kind with rfl | rfl <;> cases h <;> cases lacks <;> rfl
  accepts need reads := by cases need <;> rfl
  takesUp s e r need small bound own reads kind := by
    cases need with
    | load =>
        have state : e.state = .I := own.state
        have kind : r.kind = .gets := kind
        exact ⟨.memoryGrantE e r, by simp only [moesif, moesifHandle, state, kind],
          own.grantedE small bound _ (by decide) rfl rfl⟩
    | store =>
        have state : e.state = .I := own.state
        have kind : r.kind = .getm := kind
        exact ⟨.memoryGrant e r .M, by simp only [moesif, moesifHandle, state, kind],
          own.granted small bound _ (by decide) rfl (by decide)⟩
    | raise =>
        have state : e.state = .E := own.state
        have kind : r.kind = .getx := kind
        exact ⟨.silentUpgrade e r, by simp only [moesif, moesifHandle, state, kind],
          own.raised rfl rfl rfl rfl rfl rfl rfl rfl rfl⟩

def Protocol.own : (p : Protocol) → Own p.fsm
  | .MI => miOwn
  | .MSI => msiOwn
  | .MESI => mesiOwn
  | .MOSI => mosiOwn
  | .MOESIF => moesifOwn

end Coherence
