import MulticoreSim.Coherence.DirectoryEntry

/-! # The branches of the directories

One refinement for each branch of the handlers: which event of the line it is.
The first part moves messages, the second names entries, the third puts both
together for the branches in the order of the handlers.
-/

namespace Coherence

open DirectoryProtocol Outcome

/-! ## Moving messages -/

section

variable {B : Block NodeId} {i h : NodeId}

theorem moves_modify (quiet : B.Quiet) {f : Slot → Slot} {taken : List MessageKind}
    {sent : List (MessageKind × Bool)} {fetch : Option Grant}
    (here : Moves (B.slot i) (f (B.slot i)) taken sent fetch) (j : NodeId) :
    Moves (B.slot j) ((B.modify i f).slot j) (if i = j then taken else [])
      (if i = j then sent else []) (if i = j then fetch else none) := by
  rw [Block.modify_slot]
  by_cases eq : i = j
  · subst j
    simpa using here
  · simpa [eq, Ne.symm eq] using Moves.refl (quiet j)

theorem quiet_modify (quiet : B.Quiet) {f : Slot → Slot}
    (here : ∀ g, (f (B.slot i)).phase ≠ .fetching g) : (B.modify i f).Quiet := by
  intro j
  rw [Block.modify_slot]
  split
  · next eq => exact eq ▸ here
  · exact quiet j

theorem moves_fetch (quiet : B.Quiet) {q : Request} (asked : (B.slot i).phase = .asked q) (g : Grant)
    (m : Mode NodeId) (s : Finset NodeId) (j : NodeId) :
    Moves (B.slot j) ((B.fetch i g m s).slot j) (addressed j [(i, requestKind q)]) []
      (if i = j then some g else none) := by
  simpa [addressed_cons] using moves_modify quiet (.fetch_asked asked g) j

theorem moves_fetch_waiting (quiet : B.Quiet) (waiting : (B.slot i).phase = .waiting) (g : Grant)
    (m : Mode NodeId) (s : Finset NodeId) (j : NodeId) :
    Moves (B.slot j) ((B.fetch i g m s).slot j) [] [] (if i = j then some g else none) := by
  simpa [addressed_cons] using moves_modify quiet (.fetch_waiting waiting g) j

theorem moves_serve (quiet : B.Quiet) {q : Request} (asked : (B.slot i).phase = .asked q)
    (unsent : ∀ o, (B.slot i).probe ≠ .sent o) (g : Grant) (m : Mode NodeId) (s : Finset NodeId)
    (j : NodeId) :
    Moves (B.slot j) ((B.serve i g m s).slot j) (addressed j [(i, requestKind q)])
      (addressed j [(i, grantKind g, false)]) none := by
  simpa [addressed_cons] using moves_modify quiet (.grant_asked asked unsent g) j

theorem moves_serve_waiting (quiet : B.Quiet) (waiting : (B.slot i).phase = .waiting)
    (unsent : ∀ o, (B.slot i).probe ≠ .sent o) (g : Grant) (m : Mode NodeId) (s : Finset NodeId)
    (j : NodeId) :
    Moves (B.slot j) ((B.serve i g m s).slot j) [] (addressed j [(i, grantKind g, false)]) none := by
  simpa [addressed_cons] using moves_modify quiet (.grant_waiting waiting unsent g) j

theorem moves_settle (quiet : B.Quiet) {reply : Reply} (answered : (B.slot h).probe = .answered reply)
    (j : NodeId) :
    Moves (B.slot j) ((B.modify h .settle).slot j) (addressed j [(h, replyKind reply)]) [] none := by
  simpa [addressed_cons] using moves_modify quiet (.settle (quiet h) answered) j

theorem moves_send (quiet : B.Quiet) (idle : (B.slot h).probe = .idle) (o : Order) (j : NodeId) :
    Moves (B.slot j) ((B.modify h (.send o)).slot j) [] (addressed j [(h, orderMessage o)]) none := by
  simpa [addressed_cons] using moves_modify quiet (.send (quiet h) idle o) j

theorem moves_tell (quiet : B.Quiet) {q : Request} (asked : (B.slot i).phase = .asked q)
    (idle : (B.slot h).probe = .idle) (o : Order) (m : Mode NodeId) (j : NodeId) :
    Moves (B.slot j) ((B.tell h i o m).slot j) (addressed j [(i, requestKind q)])
      (addressed j [(h, orderMessage o)]) none := by
  have quiet' : (B.modify h (.send o)).Quiet := quiet_modify quiet (quiet h)
  have asked' : ((B.modify h (.send o)).slot i).phase = .asked q := by
    rw [Block.modify_slot]
    split <;> exact asked
  have first := moves_send quiet idle o j
  have second := moves_modify quiet' (.wait asked') j
  simpa [addressed_cons] using first.trans second

/-- The holder's answer is taken in and the requester is served. -/
theorem moves_answer (quiet : B.Quiet) {reply : Reply}
    (answered : (B.slot h).probe = .answered reply) (waiting : (B.slot i).phase = .waiting)
    (unsent : ∀ o, (B.slot i).probe ≠ .sent o) (g : Grant) (m : Mode NodeId) (s : Finset NodeId)
    (j : NodeId) :
    Moves (B.slot j) (((B.modify h .settle).serve i g m s).slot j)
      (addressed j [(h, replyKind reply)]) (addressed j [(i, grantKind g, false)]) none := by
  have quiet' : (B.modify h .settle).Quiet := quiet_modify quiet (quiet h)
  have waiting' : ((B.modify h .settle).slot i).phase = .waiting := by
    rw [Block.modify_slot]
    split <;> exact waiting
  have unsent' : ∀ o, ((B.modify h .settle).slot i).probe ≠ .sent o := by
    rw [Block.modify_slot]
    split
    · exact fun o sent => nomatch sent
    · exact unsent
  simpa using (moves_settle quiet answered j).trans (moves_serve_waiting quiet' waiting' unsent' g m s j)

theorem moves_purge (quiet : B.Quiet) {q : Request} (asked : (B.slot i).phase = .asked q)
    {targets : Finset NodeId} (idle : ∀ j ∈ targets, (B.slot j).probe = .idle) {l : List NodeId}
    (nodup : l.Nodup) (listed : ∀ j, j ∈ l ↔ j ∈ targets) (m : Mode NodeId) (j : NodeId) :
    Moves (B.slot j) ((B.purge targets i m).slot j) (addressed j [(i, requestKind q)])
      (addressed j (l.map fun i => (i, .reqInvalid, false))) none := by
  have quiet' : (B.order targets .invalidate).Quiet := by
    intro j
    rw [Block.order_slot]
    split <;> exact quiet j
  have asked' : ((B.order targets .invalidate).slot i).phase = .asked q := by
    rw [Block.order_slot]
    split <;> exact asked
  have first : Moves (B.slot j) ((B.order targets .invalidate).slot j) []
      (addressed j (l.map fun i => (i, .reqInvalid, false))) none := by
    rw [addressed_map j nodup, Block.order_slot]
    by_cases mem : j ∈ targets
    · rw [if_pos mem, if_pos ((listed j).mpr mem)]
      exact .send (quiet j) (idle j mem) .invalidate
    · rw [if_neg mem, if_neg (mem ∘ (listed j).mp)]
      exact .refl (quiet j)
  have second := moves_modify quiet' (.wait asked') j
  simpa [addressed_cons] using first.trans second

end

/-! ## Entries -/

/-- The modes a directory state is used for. -/
def Named (m : Mode NodeId) : DirState → Prop
  | .I => m = .idle
  | .S => m = .shared
  | .E => ∃ h, m = .exclusive h true
  | .M => ∃ h, m = .exclusive h false
  | .F => ∃ o, m = .owned o true
  | .O => ∃ o, m = .owned o false
  | .MM | .EM => ∃ h i, m = .takeover h i
  | .MS | .ES => ∃ h i, m = .downgrade h i
  | .MO | .OO => ∃ o i, m = .forward o i false
  | .EF | .FF => ∃ o i, m = .forward o i true
  | .SM => ∃ i, m = .invalidate i
  | .OM => ∃ o i recalled, m = .reclaim o i false recalled
  | .FM => ∃ o i recalled, m = .reclaim o i true recalled
  | .FS | .SS => False

section

variable {P : Profile} {marks : Prop} {n : Nat} {b : BlockId} {e e' : DirEntry} {B B' : Block NodeId}
  {starved wild : Prop} {r : Message} {s : Settings}

theorem Stands.named {m : Mode NodeId} {d : DirState} (stands : Stands P d m) : Named m d := by
  cases m with
  | exclusive h c | owned h c => cases c <;> cases stands <;> exact ⟨_, rfl⟩
  | forward o i c => cases c <;> rcases stands with rfl | rfl <;> exact ⟨_, _, rfl⟩
  | reclaim o i c recalled => cases c <;> cases stands <;> exact ⟨_, _, _, rfl⟩
  | takeover h i | downgrade h i => rcases stands with rfl | ⟨-, rfl⟩ <;> exact ⟨_, _, rfl⟩
  | invalidate i => cases stands; exact ⟨_, rfl⟩
  | idle | shared => cases stands; rfl

theorem not_collecting (stable : B.mode.requester = none) : ¬ B.Collecting := by
  rintro (⟨r, mode⟩ | ⟨o, r, c, mode⟩) <;> simp [mode, Mode.requester] at stable

/-- Where nobody owns the block, `o_f_id` may be anything. -/
theorem ownerless {mode : Mode NodeId} (none : mode.owner = none) :
    ∀ o, mode.owner = some o → e.oFId = o := by
  intro o owned
  rw [none] at owned
  cases owned

/-- An entry at rest. -/
theorem Entry.stable (rest : B.mode.requester = none) (stands : Stands P e.state B.mode)
    (blockId : e.blockId = b) (members : Members n e.presence e.activeSharers B.members)
    (owner : ∀ o, B.mode.owner = some o → e.oFId = o) : Entry P marks n b e B where
  stands := stands
  blockId := blockId
  members := members
  requester i requester := by simp [rest] at requester
  owner := owner
  awaiting collecting := absurd collecting (not_collecting rest)
  upgrade _ i mode := by simp [mode, Mode.requester] at rest

/-- An entry whose holder or owner has been asked for something. -/
theorem Entry.asking {i : NodeId} (requester : B.mode.requester = some i)
    (single : ¬ B.Collecting) (stands : Stands P e.state B.mode) (blockId : e.blockId = b)
    (members : Members n e.presence e.activeSharers B.members) (req : e.reqNodeInTransient = i)
    (bound : i < n) (owner : ∀ o, B.mode.owner = some o → e.oFId = o) : Entry P marks n b e B where
  stands := stands
  blockId := blockId
  members := members
  requester j requester' := by
    cases requester.symm.trans requester'
    exact ⟨req, bound⟩
  owner := owner
  awaiting collecting := absurd collecting single
  upgrade _ i mode := absurd (.inl ⟨i, mode⟩) single

/-- An entry whose owner has been recalled. -/
theorem Entry.recalled {o i : NodeId} {c : Bool} (mode : B.mode = .reclaim o i c true)
    (bound : i < n) (state : e.state = if c then .FM else .OM) (blockId : e.blockId = b)
    (members : Members n e.presence e.activeSharers B.members) (req : e.reqNodeInTransient = i)
    (owner : e.oFId = o) : Entry P marks n b e B := by
  refine .asking (by simp [mode, Mode.requester]) ?_ (by simpa [Stands, mode]) blockId members req
    bound ?_
  · rintro (⟨_, eq⟩ | ⟨_, _, _, eq⟩) <;> cases mode.symm.trans eq
  · intro o' eq
    simp only [mode, Mode.owner] at eq
    cases eq
    exact owner

/-- Nothing hangs on an entry's `dirty` mark. -/
theorem Entry.dirty (entry : Entry P marks n b e B) (dirty : Bool) :
    Entry P marks n b { e with dirty := dirty } B :=
  ⟨entry.stands, entry.blockId, entry.members, entry.requester, entry.owner, entry.awaiting,
    entry.upgrade⟩

theorem Refines.dirty {o : Outcome} (refines : Refines P marks n b starved wild B r o B')
    (dirty : Bool) :
    Refines P marks n b starved wild B r { o with entry := { o.entry with dirty := dirty } } B' :=
  ⟨refines.steps, refines.entry.dirty dirty, refines.moves, refines.tags, refines.scheduled,
    refines.clean, refines.awaits⟩

/-! ## One event -/

namespace Meets

theorem asked (m : Meets P marks n b e B r) {q : Request} (kind : r.kind = requestKind q) :
    B.Asks r.src q := asked_of_up (kind ▸ m.here)

theorem asksWrite (m : Meets P marks n b e B r) {q : Request} (kind : r.kind = requestKind q)
    (write : q ≠ .read) : B.AsksWrite r.src := by
  have asked := m.asked kind
  cases q with
  | read => exact absurd rfl write
  | write => exact .inl asked
  | upgrade => exact .inr asked

theorem answered (m : Meets P marks n b e B r) (reply : Reply) (kind : r.kind = replyKind reply) :
    (B.slot r.src).probe = .answered reply := answered_of_up (kind ▸ m.here)

theorem waiting (m : Meets P marks n b e B r) {i : NodeId} (requester : B.mode.requester = some i) :
    (B.slot i).phase = .waiting := (m.inv.waiting i).mpr requester

/-- Memory is asked for the requester's data. -/
theorem fetch (m : Meets P marks n b e B r) {q : Request} (kind : r.kind = requestKind q)
    {v : Event NodeId} {g : Grant} {mode : Mode NodeId} {s : Finset NodeId}
    (after : B.after v = B.fetch r.src g mode s) (enabled : B.Enabled v)
    (legal : Legal P starved wild B r B v) {E : Bool} (grant : (if E then .cleanExclusive else .data) = g)
    {st : CoherenceStats → CoherenceStats} (rest : mode.requester = none)
    (stands : Stands P e'.state mode) (blockId : e'.blockId = b)
    (members : Members n e'.presence e'.activeSharers s) (owner : mode.owner = none) :
    ∃ B', Refines P marks n b starved wild B r
      { entry := e', schedule := some (r.block, r.src), sendE := E, stats := st } B' := by
  refine ⟨B.after v, ?_⟩
  constructor
  case steps => exact .single legal enabled
  case entry =>
    rw [after]
    exact .stable rest stands blockId members fun o eq => by simp [owner] at eq
  case moves =>
    intro j
    subst grant
    rw [after]
    simpa [Outcome.taken, Outcome.sent, Outcome.fetch, kind] using
      moves_fetch m.quiet (m.asked kind) _ mode s j
  case awaits => exact fun _ _ collecting => absurd collecting (not_collecting (after ▸ rest))
  case tags => simp
  case scheduled => simp [m.block]
  case clean => simp

/-- The requester is answered at once. -/
theorem serve (m : Meets P marks n b e B r) {q : Request} (kind : r.kind = requestKind q)
    {v : Event NodeId} {g : Grant} {mode : Mode NodeId} {s : Finset NodeId}
    {st : CoherenceStats → CoherenceStats} {tag : BlockId}
    (after : B.after v = B.serve r.src g mode s) (enabled : B.Enabled v)
    (legal : Legal P starved wild B r B v) (unsent : ∀ o, (B.slot r.src).probe ≠ .sent o)
    (rest : mode.requester = none)
    (stands : Stands P e'.state mode) (blockId : e'.blockId = b)
    (members : Members n e'.presence e'.activeSharers s) (owner : mode.owner = none)
    (tagged : tag = b) :
    ∃ B', Refines P marks n b starved wild B r
      { entry := e', sends := [{ dest := r.src, tag := tag, kind := grantKind g }], stats := st } B' := by
  refine ⟨B.after v, ?_⟩
  constructor
  case steps => exact .single legal enabled
  case entry =>
    rw [after]
    exact .stable rest stands blockId members fun o eq => by simp [owner] at eq
  case moves =>
    intro j
    rw [after]
    simpa [Outcome.taken, Outcome.sent, Outcome.fetch, kind] using
      moves_serve m.quiet (m.asked kind) unsent g mode s j
  case awaits => exact fun _ _ collecting => absurd collecting (not_collecting (after ▸ rest))
  case tags => simp [tagged]
  case scheduled => simp
  case clean => simp

/-- The holder or owner is asked for something. -/
theorem tell (m : Meets P marks n b e B r) {q : Request} (kind : r.kind = requestKind q)
    {v : Event NodeId} {h : NodeId} {o : Order} {mode : Mode NodeId}
    (after : B.after v = B.tell h r.src o mode) (enabled : B.Enabled v)
    (legal : Legal P starved wild B r B v) (idle : (B.slot h).probe = .idle)
    {st : CoherenceStats → CoherenceStats} (requester : mode.requester = some r.src)
    (single : ¬ (B.tell h r.src o mode).Collecting)
    (stands : Stands P e'.state mode) (blockId : e'.blockId = b)
    (members : Members n e'.presence e'.activeSharers B.members)
    (req : e'.reqNodeInTransient = r.src) (owner : ∀ o, mode.owner = some o → e'.oFId = o) :
    ∃ B', Refines P marks n b starved wild B r
      { entry := e'
        sends := [{ dest := h, tag := r.block, kind := (orderMessage o).1, dirty := (orderMessage o).2 }]
        stats := st } B' := by
  refine ⟨B.after v, ?_⟩
  constructor
  case steps => exact .single legal enabled
  case entry =>
    rw [after]
    exact .asking requester single stands blockId members req m.src owner
  case moves =>
    intro j
    rw [after]
    simpa [Outcome.taken, Outcome.sent, Outcome.fetch, kind] using
      moves_tell m.quiet (m.asked kind) idle o mode j
  case awaits => exact fun _ _ collecting => absurd collecting (after ▸ single)
  case tags => simp [m.block]
  case scheduled => simp
  case clean => simp

/-- The holder's or owner's data is taken in and goes to the requester. -/
theorem answer (m : Meets P marks n b e B r) (kind : r.kind = .data)
    {v : Event NodeId} {i : NodeId} {g : Grant} {mode : Mode NodeId} {s : Finset NodeId}
    (after : B.after v = (B.modify r.src .settle).serve i g mode s) (enabled : B.Enabled v)
    (legal : Legal P starved wild B r B v) (requester : B.mode.requester = some i)
    (unsent : ∀ o, (B.slot i).probe ≠ .sent o)
    {st : CoherenceStats → CoherenceStats} (rest : mode.requester = none)
    (stands : Stands P e'.state mode) (blockId : e'.blockId = b)
    (members : Members n e'.presence e'.activeSharers s)
    (owner : ∀ o, mode.owner = some o → e'.oFId = o) :
    ∃ B', Refines P marks n b starved wild B r
      { entry := e'
        sends := [{ dest := i, tag := r.block, kind := grantKind g }]
        stats := st } B' := by
  refine ⟨B.after v, ?_⟩
  constructor
  case steps => exact .single legal enabled
  case entry =>
    rw [after]
    exact .stable rest stands blockId members owner
  case moves =>
    intro j
    rw [after]
    have answered := m.answered .data kind
    simpa [Outcome.taken, Outcome.sent, Outcome.fetch, kind, replyKind] using
      moves_answer m.quiet answered (m.waiting requester) unsent g mode s j
  case awaits => exact fun _ _ collecting => absurd collecting (not_collecting (after ▸ rest))
  case tags => simp [m.block]
  case scheduled => simp
  case clean => simp

/-! ## Memory answers -/

theorem named (m : Meets P marks n b e B r) {d : DirState} (state : e.state = d) :
    Named B.mode d := state ▸ m.entry.stands.named

theorem no_members (m : Meets P marks n b e B r) (mode : B.mode = .idle) :
    Members n e.presence e.activeSharers ∅ := by
  have members := m.entry.members
  have rights := m.inv.rights
  simp only [Block.ModeOk, mode] at rights
  rwa [rights] at members

/-- The one member of an exclusive line, and what it holds. -/
theorem holder (m : Meets P marks n b e B r) {h : NodeId} {c : Bool}
    (mode : B.mode = .exclusive h c) :
    Members n e.presence e.activeSharers {h} ∧ B.members = {h} ∧ (B.slot h).Holds .exclusive := by
  have members := m.entry.members
  have rights := m.inv.rights
  simp only [Block.ModeOk, mode] at rights
  rw [rights.1] at members
  exact ⟨members, rights⟩

theorem reader_none (m : Meets P marks n b e B r) {i : NodeId} (asks : B.Asks i .read) :
    (B.slot i).effective = .none := by
  rw [Block.effective_of_asks asks]
  exact (m.inv.slots i).reads ((m.inv.slots i).asked _ asks)

/-- A reader is not a sharer already. -/
theorem fresh_reader (m : Meets P marks n b e B r) (mode : B.mode = .shared) {i : NodeId}
    (asks : B.Asks i .read) : i ∉ B.members := by
  intro mem
  have rights := m.inv.rights
  simp only [Block.ModeOk, mode] at rights
  cases (m.reader_none asks).symm.trans (rights.2 i mem).2

theorem singleton_of_add {i : NodeId} (m : Meets P marks n b e B r)
    (members : Members n e.presence e.activeSharers ∅) (bound : i < n) :
    Members n (e.addPresence i).presence (e.addPresence i).activeSharers {i} := by
  simpa using members.add m.small bound (i := i) (by simp)

/-- (I, GETM) and (I, GETX). -/
theorem grantExclusive (m : Meets P marks n b e B r) (state : e.state = .I) {q : Request}
    (kind : r.kind = requestKind q) (write : q ≠ .read) {st : CoherenceStats → CoherenceStats}
    (next : e'.state = .M) (blockId : e'.blockId = b)
    (members : Members n e'.presence e'.activeSharers {r.src}) :
    ∃ B', Refines P marks n b starved wild B r
      { entry := e', schedule := some (r.block, r.src), stats := st } B' :=
  m.fetch (v := .grantExclusive r.src) kind rfl ⟨m.quiet, m.named state, m.asksWrite kind write⟩
    (.asking trivial rfl rfl kind (m.asked kind) nofun nofun) rfl rfl next blockId members rfl

theorem memoryGrant_M (m : Meets P marks n b e B r) (state : e.state = .I) {q : Request}
    (kind : r.kind = requestKind q) (write : q ≠ .read) :
    ∃ B', Refines P marks n b starved wild B r (memoryGrant e r .M) B' :=
  m.grantExclusive state kind write rfl m.entry.blockId
    (m.singleton_of_add (m.no_members (m.named state)) m.src)

/-- (I, GETS) where a lone reader shares. -/
theorem grantShared (m : Meets P marks n b e B r) (state : e.state = .I) (kind : r.kind = .gets)
    (reads : P.reads = true) (dirty : P.clean = false) {st : CoherenceStats → CoherenceStats}
    (next : e'.state = .S) (blockId : e'.blockId = b)
    (members : Members n e'.presence e'.activeSharers {r.src}) :
    ∃ B', Refines P marks n b starved wild B r
      { entry := e', schedule := some (r.block, r.src), stats := st } B' :=
  m.fetch (q := .read) (v := .grantShared r.src) kind rfl
    ⟨m.quiet, m.named state, m.asked (q := .read) kind⟩
    (.asking ⟨reads, dirty⟩ rfl rfl (q := .read) kind (m.asked (q := .read) kind) nofun nofun)
    rfl rfl next blockId members rfl

/-- (I, GETS) where a lone reader becomes a clean holder. -/
theorem memoryGrantE (m : Meets P marks n b e B r) (state : e.state = .I) (kind : r.kind = .gets)
    (clean : P.clean = true) :
    ∃ B', Refines P marks n b starved wild B r (memoryGrantE e r) B' :=
  m.fetch (q := .read) (v := .grantClean r.src) kind rfl
    ⟨m.quiet, m.named state, m.asked (q := .read) kind⟩
    (.asking clean rfl rfl (q := .read) kind (m.asked (q := .read) kind) nofun nofun) rfl rfl rfl
    m.entry.blockId (m.singleton_of_add (m.no_members (m.named state)) m.src) rfl

/-- (S, GETS). -/
theorem join (m : Meets P marks n b e B r) (state : e.state = .S) (kind : r.kind = .gets)
    {st : CoherenceStats → CoherenceStats} (next : e'.state = .S) (blockId : e'.blockId = b)
    (members : Members n e'.presence e'.activeSharers (insert r.src B.members)) :
    ∃ B', Refines P marks n b starved wild B r
      { entry := e', schedule := some (r.block, r.src), stats := st } B' :=
  m.fetch (q := .read) (v := .join r.src) kind rfl
    ⟨m.quiet, m.named state, m.asked (q := .read) kind⟩
    (.asking trivial rfl rfl (q := .read) kind (m.asked (q := .read) kind) nofun nofun) rfl rfl next
    blockId members rfl

theorem memoryGrant_S (m : Meets P marks n b e B r) (state : e.state = .S) (kind : r.kind = .gets) :
    ∃ B', Refines P marks n b starved wild B r (memoryGrant e r .S) B' :=
  m.join state kind rfl m.entry.blockId
    (m.entry.members.add m.small m.src
      (m.fresh_reader (m.named state) (m.asked (q := .read) kind)))

/-! ## Recalls -/

/-- (M, GETM), (E, GETM) and (M, GETX). -/
theorem takeover (m : Meets P marks n b e B r) {h : NodeId} {c : Bool}
    (mode : B.mode = .exclusive h c) {q : Request} (kind : r.kind = requestKind q)
    (write : q ≠ .read) {st : CoherenceStats → CoherenceStats}
    (next : e'.state = .MM ∨ P.clean = true ∧ e'.state = .EM) (blockId : e'.blockId = b)
    (members : Members n e'.presence e'.activeSharers B.members)
    (req : e'.reqNodeInTransient = r.src) :
    ∃ B', Refines P marks n b starved wild B r
      { entry := e', sends := [{ dest := h, tag := r.block, kind := .recallGotoI }], stats := st }
      B' :=
  m.tell (v := .takeover h r.src c) kind rfl ⟨m.quiet, mode, m.asksWrite kind write⟩
    (.asking trivial rfl rfl kind (m.asked kind) nofun nofun) (m.holder mode).2.2.1 rfl
    (by rintro (⟨i, mode⟩ | ⟨o, i, c, mode⟩) <;> cases mode) next blockId members req nofun

/-- (M, GETS) and (E, GETS) where the holder becomes a sharer. -/
theorem downgrade (m : Meets P marks n b e B r) {h : NodeId} {c : Bool}
    (mode : B.mode = .exclusive h c) (kind : r.kind = .gets) (reads : P.reads = true)
    (owners : P.owners = false) {st : CoherenceStats → CoherenceStats}
    (next : e'.state = .MS ∨ P.clean = true ∧ e'.state = .ES) (blockId : e'.blockId = b)
    (members : Members n e'.presence e'.activeSharers B.members)
    (req : e'.reqNodeInTransient = r.src) :
    ∃ B', Refines P marks n b starved wild B r
      { entry := e', sends := [{ dest := h, tag := r.block, kind := .recallGotoS }], stats := st }
      B' :=
  m.tell (q := .read) (o := .share) (v := .downgrade h r.src c) kind rfl
    ⟨m.quiet, mode, m.asked (q := .read) kind⟩
    (.asking ⟨reads, owners⟩ rfl rfl (q := .read) kind (m.asked (q := .read) kind) nofun nofun)
    (m.holder mode).2.2.1 rfl
    (by rintro (⟨i, mode⟩ | ⟨o, i, c, mode⟩) <;> cases mode) next blockId members req nofun

theorem recall_write (m : Meets P marks s.numProcs b e B r) {h : NodeId} {c : Bool}
    (mode : B.mode = .exclusive h c) {q : Request} (kind : r.kind = requestKind q)
    (write : q ≠ .read) {next : DirState} (step : next = .MM ∨ P.clean = true ∧ next = .EM) :
    ∃ B', Refines P marks s.numProcs b starved wild B r (recallHolder s e r .recallGotoI next) B' := by
  rw [recallHolder, (m.holder mode).1.lastPresent]
  exact m.takeover mode kind write step m.entry.blockId m.entry.members rfl

theorem recall_read (m : Meets P marks s.numProcs b e B r) {h : NodeId} {c : Bool}
    (mode : B.mode = .exclusive h c) (kind : r.kind = .gets) (reads : P.reads = true)
    (owners : P.owners = false) {next : DirState} (step : next = .MS ∨ P.clean = true ∧ next = .ES) :
    ∃ B', Refines P marks s.numProcs b starved wild B r (recallHolder s e r .recallGotoS next) B' := by
  rw [recallHolder, (m.holder mode).1.lastPresent]
  exact m.downgrade mode kind reads owners step m.entry.blockId m.entry.members rfl

/-- (M, GETS) and (E, GETS) where the holder becomes the owner. -/
theorem recallToOwner (m : Meets P marks s.numProcs b e B r) {h : NodeId} {c keep : Bool}
    (mode : B.mode = .exclusive h c) (kind : r.kind = .gets) (owners : P.owners = true)
    {next : DirState} (step : next = if c then .EF else .MO) :
    ∃ B', Refines P marks s.numProcs b starved wild B r (recallToOwner s e r keep next) B' := by
  have one := (m.holder mode).1
  rw [Outcome.recallToOwner, one.lastPresent, one.any_present]
  refine m.tell (q := .read) (o := .own keep) (v := .forward h r.src c keep) kind rfl
    ⟨m.quiet, .inl mode, m.asked (q := .read) kind⟩
    (.asking owners rfl rfl (q := .read) kind (m.asked (q := .read) kind) nofun nofun)
    (m.holder mode).2.2.1 rfl ?_ ?_ m.entry.blockId m.entry.members rfl ?_
  · rintro (⟨i, mode⟩ | ⟨o, i, c, mode⟩) <;> cases mode
  · cases c <;> simp [Stands, step]
  · rintro o ⟨⟩
    rfl

/-- (O, GETS) and (F, GETS). -/
theorem askOwner (m : Meets P marks n b e B r) {o : NodeId} {c keep : Bool}
    (mode : B.mode = .owned o c) (kind : r.kind = .gets) (owners : P.owners = true)
    {next : DirState} (step' : next = if c then .FF else .OO) {fromOwner : String} {out : Outcome}
    (step : askOwner e r keep next fromOwner = .ok out) :
    ∃ B', Refines P marks n b starved wild B r out B' := by
  have rights := m.inv.rights
  simp only [Block.ModeOk, mode] at rights
  have owner : e.oFId = o := m.entry.owner o (by simp [mode, Mode.owner])
  unfold Outcome.askOwner at step
  split at step
  · cases step
  · cases step
    rw [owner]
    refine m.tell (q := .read) (o := .own keep) (v := .forward o r.src c keep) kind rfl
      ⟨m.quiet, .inr mode, m.asked (q := .read) kind⟩
      (.asking owners rfl rfl (q := .read) kind (m.asked (q := .read) kind) (by simp) (by simp))
      rights.2.1.1 rfl ?_ ?_ m.entry.blockId m.entry.members rfl ?_
    · rintro (⟨i, mode⟩ | ⟨o, i, c, mode⟩) <;> cases mode
    · cases c <;> simp [Stands, step']
    · rintro o ⟨⟩
      rfl

/-! ## Recalled data -/

/-- A waiting reader has no copy. -/
theorem waiting_none (m : Meets P marks n b e B r) {i : NodeId}
    (requester : B.mode.requester = some i) (serves : B.mode.serves = .read) :
    (B.slot i).right = .none :=
  (m.inv.slots i).reads ((m.inv.serves i requester).trans serves)

/-- (MM, DATA) and (EM, DATA). -/
theorem takenOver (m : Meets P marks n b e B r) (kind : r.kind = .data) {h i : NodeId}
    (mode : B.mode = .takeover h i) {st : CoherenceStats → CoherenceStats}
    (next : e'.state = .M) (blockId : e'.blockId = b)
    (members : Members n e'.presence e'.activeSharers {i}) :
    ∃ B', Refines P marks n b starved wild B r
      { entry := e', sends := [{ dest := i, tag := r.block, kind := .data }], stats := st } B' := by
  have answered := m.answered .data kind
  have holder : h = r.src := by
    rcases m.inv.answered_data answered with ⟨_, eq⟩ | ⟨_, eq⟩ | ⟨_, _, eq⟩ | ⟨_, _, eq⟩ <;>
      cases mode.symm.trans eq
    rfl
  subst h
  have rights := m.inv.rights
  simp only [Block.ModeOk, mode] at rights
  refine m.answer (g := .data) (v := .takenOver r.src i) kind rfl ⟨m.quiet, mode, answered⟩
    (.silent trivial rfl rfl (by simp)) (by simp [mode, Mode.requester]) ?_ rfl next blockId members
    (ownerless rfl)
  intro o sent
  by_cases eq : i = r.src
  · subst i
    cases answered.symm.trans sent
  · have idle := m.inv.outsiders i (by simp [rights.1, eq])
    cases idle.symm.trans sent

theorem takeover_holder (m : Meets P marks n b e B r) {h i : NodeId}
    (mode : B.mode = .takeover h i) : Members n e.presence e.activeSharers {h} := by
  have members := m.entry.members
  have rights := m.inv.rights
  simp only [Block.ModeOk, mode] at rights
  rwa [rights.1] at members

/-- The holder drops out and the requester becomes the only member. -/
theorem handed_over (m : Meets P marks n b e B r) {h i : NodeId} (mode : B.mode = .takeover h i) :
    Members n ((e.dropPresence h).addPresence i).presence
      ((e.dropPresence h).addPresence i).activeSharers {i} := by
  have dropped := (m.takeover_holder mode).drop m.small (i := h) (by simp)
  rw [Finset.erase_singleton] at dropped
  have bound := (m.entry.requester i (by simp [mode, Mode.requester])).2
  simpa using dropped.add m.small bound (Finset.notMem_empty _)

theorem transfer (m : Meets P marks n b e B r) (kind : r.kind = .data) {h i : NodeId}
    (mode : B.mode = .takeover h i) :
    ∃ B', Refines P marks n b starved wild B r (transfer e r) B' := by
  obtain ⟨rfl, bound⟩ := m.entry.requester i (by simp [mode, Mode.requester])
  have holder : h = r.src := by
    have answered := m.answered .data kind
    rcases m.inv.answered_data answered with ⟨_, eq⟩ | ⟨_, eq⟩ | ⟨_, _, eq⟩ | ⟨_, _, eq⟩ <;>
      cases mode.symm.trans eq
    rfl
  subst h
  exact m.takenOver kind mode rfl m.entry.blockId (m.handed_over mode)

/-- (MS, DATA) and (ES, DATA). -/
theorem downgraded (m : Meets P marks n b e B r) (kind : r.kind = .data) {h i : NodeId}
    (mode : B.mode = .downgrade h i) {st : CoherenceStats → CoherenceStats}
    (next : e'.state = .S) (blockId : e'.blockId = b)
    (members : i ∉ B.members → i < n →
      Members n e'.presence e'.activeSharers (insert i B.members)) :
    ∃ B', Refines P marks n b starved wild B r
      { entry := e', sends := [{ dest := i, tag := r.block, kind := .data }], stats := st } B' := by
  have answered := m.answered .data kind
  have holder : h = r.src := by
    rcases m.inv.answered_data answered with ⟨_, eq⟩ | ⟨_, eq⟩ | ⟨_, _, eq⟩ | ⟨_, _, eq⟩ <;>
      cases mode.symm.trans eq
    rfl
  subst h
  have rights := m.inv.rights
  simp only [Block.ModeOk, mode] at rights
  have requester : B.mode.requester = some i := by simp [mode, Mode.requester]
  have none := m.waiting_none requester (by simp [mode, Mode.serves])
  have ne : i ≠ r.src := by
    rintro rfl
    rcases rights.2 with ⟨sent, -⟩ | ⟨-, shared, -⟩
    · cases answered.symm.trans sent
    · cases none.symm.trans shared
  have fresh : i ∉ B.members := by simp [rights.1, ne]
  refine m.answer (g := .data) (v := .downgraded r.src i) kind rfl ⟨m.quiet, mode, answered⟩
    (.silent trivial rfl rfl (by simp)) requester ?_ rfl next blockId
    (members fresh (m.entry.requester i requester).2) (ownerless rfl)
  intro o sent
  cases (m.inv.outsiders i fresh).symm.trans sent

theorem shareData_S (m : Meets P marks n b e B r) (kind : r.kind = .data) {h i : NodeId}
    (mode : B.mode = .downgrade h i) {st : CoherenceStats → CoherenceStats} :
    ∃ B', Refines P marks n b starved wild B r { shareData e r .S with stats := st } B' := by
  obtain ⟨rfl, -⟩ := m.entry.requester i (by simp [mode, Mode.requester])
  exact m.downgraded kind mode rfl m.entry.blockId
    fun fresh bound => m.entry.members.add m.small bound fresh

/-- (MO, DATA), (OO, DATA), (EF, DATA) and (FF, DATA). -/
theorem forwarded (m : Meets P marks n b e B r) (kind : r.kind = .data) {o i : NodeId} {c : Bool}
    (mode : B.mode = .forward o i c) {next : DirState} (step : next = if c then .F else .O) :
    ∃ B', Refines P marks n b starved wild B r (shareData e r next) B' := by
  have answered := m.answered .data kind
  have holder : o = r.src := by
    rcases m.inv.answered_data answered with ⟨_, eq⟩ | ⟨_, eq⟩ | ⟨_, _, eq⟩ | ⟨_, _, eq⟩ <;>
      cases mode.symm.trans eq
    rfl
  subst o
  have rights := m.inv.rights
  simp only [Block.ModeOk, mode] at rights
  have requester : B.mode.requester = some i := by simp [mode, Mode.requester]
  have none := m.waiting_none requester (by simp [mode, Mode.serves])
  have gone : (B.slot i).effective = .none :=
    (Slot.effective_of_waiting (m.waiting requester)).trans none
  have ne : i ≠ r.src := by
    rintro rfl
    rcases rights.2.1 with ⟨⟨_, sent⟩, -⟩ | ⟨-, owned, -⟩
    · cases answered.symm.trans sent
    · cases none.symm.trans owned
  have fresh : i ∉ B.members := by
    intro mem
    cases gone.symm.trans (rights.2.2.2 i mem ne).2
  obtain ⟨rfl, bound⟩ := m.entry.requester i requester
  refine m.answer (g := .data) (v := .forwarded r.src _ c) kind rfl ⟨m.quiet, mode, answered⟩
    (.silent trivial rfl rfl (by simp)) requester ?_ rfl step m.entry.blockId
    (m.entry.members.add m.small bound fresh) ?_
  · intro o sent
    cases (m.inv.outsiders _ fresh).symm.trans sent
  · rintro o ⟨⟩
    exact m.entry.owner _ (by simp [mode, Mode.owner])

/-! ## Answers at once -/

theorem alone_of_none (m : Meets P marks n b e B r) {bound : Nat} (le : n ≤ bound)
    (none : e.presentExcept bound (fun i => i ≠ r.src) = []) : B.members ⊆ {r.src} := by
  intro i mem
  by_contra other
  have listed := (m.entry.members.mem_presentExcept le fun i => i ≠ r.src) i
  rw [none] at listed
  simp_all

/-- (S, GETM) of the only sharer. -/
theorem upgrade (m : Meets P marks n b e B r) (state : e.state = .S) {q : Request}
    {st : CoherenceStats → CoherenceStats} {tag : BlockId} (kind : r.kind = requestKind q)
    (write : q ≠ .read) (alone : B.members ⊆ {r.src}) (next : e'.state = .M)
    (blockId : e'.blockId = b)
    (members : B.members = {r.src} → Members n e'.presence e'.activeSharers {r.src})
    (tagged : tag = b) :
    ∃ B', Refines P marks n b starved wild B r
      { entry := e', sends := [{ dest := r.src, tag := tag, kind := .ack }], stats := st } B' := by
  have mode := m.named state
  have rights := m.inv.rights
  simp only [Block.ModeOk, show B.mode = .shared from mode] at rights
  have single : B.members = {r.src} :=
    (Finset.Nonempty.subset_singleton_iff rights.1).mp alone
  refine m.serve (g := .ack) (v := .upgrade r.src) kind rfl
    ⟨m.quiet, mode, m.asksWrite kind write, alone⟩
    (.asking trivial rfl rfl kind (m.asked kind) (by simp) (by simp)) ?_ rfl next blockId
    (members single) rfl tagged
  intro o sent
  cases (rights.2 r.src (by simp [single])).1.symm.trans sent

/-- (E, GETX). -/
theorem silentUpgrade (m : Meets P marks n b e B r) (state : e.state = .E) (kind : r.kind = .getx)
    (known : e.presence r.src = true ∨ wild) :
    ∃ B', Refines P marks n b starved wild B r (silentUpgrade e r) B' := by
  obtain ⟨h, mode⟩ := m.named state
  obtain ⟨members, single, holds⟩ := m.holder mode
  refine m.serve (q := .upgrade) (g := .ack) (v := .promote h r.src) kind rfl
    ⟨m.quiet, mode, m.asked (q := .upgrade) kind⟩
    (.asking trivial rfl rfl (q := .upgrade) kind (m.asked (q := .upgrade) kind) ?_ nofun) ?_ rfl rfl
    m.entry.blockId m.entry.members rfl m.block
  · rintro _ _ ⟨⟩
    exact known.imp_left (m.entry.members.presence _).mp
  · intro o sent
    by_cases eq : r.src = h
    · rw [eq] at sent
      cases holds.1.symm.trans sent
    · cases (m.inv.outsiders r.src (by simp [single, eq])).symm.trans sent

/-! ## Waiting -/

/-- A request or notice in a transient state stays in the queue. -/
theorem cycle (m : Meets P marks n b e B r) :
    ∃ B', Refines P marks n b starved wild B r (.cycle e) B' := by
  refine ⟨B, .refl, m.entry, ?_, nofun, nofun, nofun, fun _ => id⟩
  exact fun j => .refl (m.quiet j)

/-! ## Invalidations -/

/-- The line after `targets` were told to drop their copies. -/
theorem owing_purge {targets : Finset NodeId} {i : NodeId} {mode : Mode NodeId}
    (idle : ∀ j ∈ B.members, (B.slot j).probe = .idle) (sub : targets ⊆ B.members) :
    (B.purge targets i mode).owing = targets := by
  ext j
  have probe : ((B.purge targets i mode).slot j).probe =
      if j ∈ targets then .sent .invalidate else (B.slot j).probe := by
    simp only [Block.purge_slot, Block.modify_slot, Block.order_slot]
    by_cases eq : j = i <;> by_cases mem : j ∈ targets <;> simp [eq, mem, Slot.wait] <;>
      simp_all
  rw [Block.owing, Finset.mem_filter, Slot.Owing, probe, Block.purge_members]
  constructor
  · rintro ⟨mem, owes⟩
    by_contra out
    simp [out, idle j mem] at owes
  · intro mem
    exact ⟨sub mem, by simp [mem]⟩

/-- Members are invalidated for the requester. -/
theorem purge (m : Meets P marks n b e B r) {q : Request} (kind : r.kind = requestKind q)
    {v : Event NodeId} {targets : Finset NodeId} {mode : Mode NodeId} {l : List NodeId}
    {tag : BlockId} {st : CoherenceStats → CoherenceStats}
    (after : B.after v = B.purge targets r.src mode) (enabled : B.Enabled v)
    (legal : Legal P starved wild B r B v) (idle : ∀ j ∈ B.members, (B.slot j).probe = .idle)
    (sub : targets ⊆ B.members) (nodup : l.Nodup) (listed : ∀ j, j ∈ l ↔ j ∈ targets)
    (requester : mode.requester = some r.src) (stands : Stands P e'.state mode)
    (blockId : e'.blockId = b) (members : Members n e'.presence e'.activeSharers B.members)
    (req : e'.reqNodeInTransient = r.src) (owner : ∀ o, mode.owner = some o → e'.oFId = o)
    (awaited : e'.invAckWaiting = l.length)
    (marked : marks → ∀ i, mode = .invalidate i → (e'.getMUpgrade = true ↔ i ∈ B.members))
    (tagged : tag = b) (some : ¬ starved → l ≠ []) :
    ∃ B', Refines P marks n b starved wild B r
      { entry := e'
        sends := l.map fun i => { dest := i, tag := tag, kind := .reqInvalid }
        stats := st } B' := by
  have owing : (B.purge targets r.src mode).owing = targets := owing_purge idle sub
  have same : l.toFinset = targets := by
    ext j
    rw [List.mem_toFinset, listed]
  have card : l.length = targets.card := by
    rw [← same, List.toFinset_card_of_nodup nodup]
  refine ⟨B.after v, ?_⟩
  constructor
  case steps => exact .single legal enabled
  case entry =>
    rw [after]
    refine ⟨stands, blockId, members, ?_, owner, ?_, marked⟩
    · intro i requester'
      cases requester.symm.trans requester'
      exact ⟨req, m.src⟩
    · intro _
      rw [owing, awaited, card]
  case moves =>
    intro j
    rw [after]
    have idle' : ∀ j ∈ targets, (B.slot j).probe = .idle := fun j mem => idle j (sub mem)
    simpa [Outcome.taken, Outcome.sent, Outcome.fetch, kind, Function.comp_def] using
      moves_purge m.quiet (m.asked kind) idle' nodup listed mode j
  case awaits =>
    intro fed _ _
    rw [after, owing, ← same, List.toFinset_nonempty_iff]
    exact some fed
  case tags => simp [tagged]
  case scheduled => simp
  case clean => simp

/-- (S, GETM) and (S, GETX) among other sharers. -/
theorem invalidate (m : Meets P marks n b e B r) (state : e.state = .S) {q : Request}
    (kind : r.kind = requestKind q) (write : q ≠ .read) {bound : Nat} (le : n ≤ bound)
    {st : CoherenceStats → CoherenceStats} {tag : BlockId} (tagged : tag = b)
    (next : e'.state = .SM) (blockId : e'.blockId = b)
    (members : Members n e'.presence e'.activeSharers B.members)
    (req : e'.reqNodeInTransient = r.src)
    (awaited : e'.invAckWaiting = (e.presentExcept bound fun i => i ≠ r.src).length)
    (marked : marks → e'.getMUpgrade = e.presence r.src)
    (fed : ¬ starved → e.presentExcept bound (fun i => i ≠ r.src) ≠ []) :
    ∃ B', Refines P marks n b starved wild B r
      { entry := e'
        sends := (e.presentExcept bound fun i => i ≠ r.src).map
          fun i => { dest := i, tag := tag, kind := .reqInvalid }
        stats := st } B' := by
  have mode := m.named state
  have rights := m.inv.rights
  simp only [Block.ModeOk, show B.mode = .shared from mode] at rights
  refine m.purge kind (v := .invalidate r.src) rfl ⟨m.quiet, mode, m.asksWrite kind write⟩
    (.asking trivial rfl rfl kind (m.asked kind) (by simp) (by simp))
    (fun j mem => (rights.2 j mem).1) (Finset.erase_subset _ _)
    (Members.nodup_presentExcept ..) ?_ rfl next blockId members req (ownerless rfl) awaited ?_ tagged fed
  · intro j
    simp [m.entry.members.mem_presentExcept le, and_comm]
  · rintro marks i ⟨⟩
    rw [marked marks, m.entry.members.presence]

theorem owned_idle (m : Meets P marks n b e B r) {o : NodeId} {c : Bool}
    (mode : B.mode = .owned o c) : o ∈ B.members ∧ ∀ j ∈ B.members, (B.slot j).probe = .idle := by
  have rights := m.inv.rights
  simp only [Block.ModeOk, mode] at rights
  refine ⟨rights.1, fun j mem => ?_⟩
  by_cases eq : j = o
  · rw [eq]
    exact rights.2.1.1
  · exact (rights.2.2 j mem eq).1

/-- An owned line is wanted by somebody who wants to write. -/
theorem reclaimAmong (m : Meets P marks n b e B r) (all : Bool) {o : NodeId} {c : Bool}
    (mode : B.mode = .owned o c) {q : Request} (kind : r.kind = requestKind q) (write : q ≠ .read)
    (upgrade : all = true → c = true ∧ q = .upgrade) (fed : all = true → r.src = o ∨ starved)
    {l : List NodeId} {st : CoherenceStats → CoherenceStats} (nodup : l.Nodup)
    (listed : ∀ j, j ∈ l ↔ j ∈ (if all then B.members else B.members.erase o).erase r.src)
    (next : e'.state = if c then .FM else .OM) (blockId : e'.blockId = b)
    (members : Members n e'.presence e'.activeSharers B.members)
    (req : e'.reqNodeInTransient = r.src) (owner : e'.oFId = o)
    (awaited : e'.invAckWaiting = l.length) (some : ¬ starved → l ≠ []) :
    ∃ B', Refines P marks n b starved wild B r
      { entry := e'
        sends := l.map fun i => { dest := i, tag := r.block, kind := .reqInvalid }
        stats := st } B' := by
  refine m.purge kind (v := .reclaim o r.src c all) rfl
    ⟨m.quiet, mode, m.asksWrite kind write, ?_⟩
    (.asking trivial rfl rfl kind (m.asked kind) nofun ?_) (m.owned_idle mode).2 ?_
    nodup listed rfl next blockId members req ?_ awaited nofun m.block some
  · intro every
    obtain ⟨clean, rfl⟩ := upgrade every
    exact ⟨clean, m.asked kind⟩
  · rintro _ _ _ ⟨⟩
    exact fed rfl
  · split
    · exact Finset.erase_subset _ _
    · exact (Finset.erase_subset _ _).trans (Finset.erase_subset _ _)
  · rintro _ ⟨⟩
    exact owner

/-! ## Invalidation answers -/

/-- The line once the answer of member `i` has been counted in. -/
abbrev counted (B : Block NodeId) (i : NodeId) : Block NodeId :=
  { B.modify i .settle with members := B.members.erase i }

theorem counted_slot_of_ne {i j : NodeId} (ne : j ≠ i) : (counted B i).slot j = B.slot j :=
  Block.modify_slot_of_ne B .settle ne

theorem counted_owing (i : NodeId) : (counted B i).owing = B.owing.erase i := by
  ext j
  rw [Block.owing, Block.owing, Finset.mem_filter, Finset.mem_erase, Finset.mem_erase,
    Finset.mem_filter, and_assoc]
  refine and_congr_right fun ne => ?_
  rw [counted_slot_of_ne ne]

theorem counted_quiet (m : Meets P marks n b e B r) : (counted B r.src).Quiet :=
  quiet_modify m.quiet (m.quiet r.src)

theorem counted_moves (m : Meets P marks n b e B r) (kind : r.kind = .invack) (j : NodeId) :
    Moves (B.slot j) ((counted B r.src).slot j) (addressed j [(r.src, r.kind)]) [] none := by
  rw [kind]
  exact moves_settle m.quiet (m.answered .ack kind) j

theorem owes (m : Meets P marks n b e B r) (kind : r.kind = .invack) : r.src ∈ B.owing :=
  have answered := m.answered .ack kind
  Finset.mem_filter.mpr ⟨(m.inv.answered_ack answered).1, .inr answered⟩

theorem awaited (m : Meets P marks n b e B r) (kind : r.kind = .invack)
    (collecting : B.Collecting) :
    e.invAckWaiting - 1 = (counted B r.src).owing.card ∧ 1 ≤ e.invAckWaiting := by
  have owes := m.owes kind
  have pos := Finset.card_pos.mpr ⟨_, owes⟩
  rw [m.entry.awaiting collecting, counted_owing, Finset.card_erase_of_mem owes]
  omega

/-- An answer that is not the last. -/
theorem collectOn (m : Meets P marks n b e B r) (kind : r.kind = .invack)
    (collecting : B.Collecting) {v : Event NodeId} (after : B.after v = counted B r.src)
    (enabled : B.Enabled v) (legal : Legal P starved wild B r B v) (more : e.invAckWaiting ≠ 1)
    (others : ∀ i, B.mode = .invalidate i → i ≠ r.src) (state : e'.state = e.state)
    (blockId : e'.blockId = b)
    (members : Members n e'.presence e'.activeSharers (B.members.erase r.src))
    (req : e'.reqNodeInTransient = e.reqNodeInTransient) (owner : e'.oFId = e.oFId)
    (count : e'.invAckWaiting = e.invAckWaiting - 1) (mark : e'.getMUpgrade = e.getMUpgrade) :
    ∃ B', Refines P marks n b starved wild B r { entry := e' } B' := by
  obtain ⟨card, pos⟩ := m.awaited kind collecting
  refine ⟨B.after v, ?_⟩
  constructor
  case steps => exact .single legal enabled
  case entry =>
    rw [after]
    refine ⟨state ▸ m.entry.stands, blockId, members, ?_, ?_, ?_, ?_⟩
    · intro i requester
      rw [req]
      exact m.entry.requester i requester
    · intro o eq
      rw [owner]
      exact m.entry.owner o eq
    · intro _
      rw [count, card]
    · intro marks i mode
      rw [mark, m.entry.upgrade marks i mode]
      simp [others i mode]
  case moves =>
    intro j
    rw [after]
    simpa [Outcome.taken, Outcome.sent, Outcome.fetch] using m.counted_moves kind j
  case awaits =>
    intro _ _ _
    rw [after, ← Finset.card_pos]
    omega
  all_goals simp

/-- Who has answered is neither the requester nor the owner. -/
theorem collector (m : Meets P marks n b e B r) (kind : r.kind = .invack) {i : NodeId}
    (mode : B.mode = .invalidate i) : i ≠ r.src := by
  rcases (m.inv.answered_ack (m.answered .ack kind)).2 with
    ⟨_, eq, ne⟩ | ⟨_, _, _, eq, -⟩ <;> cases mode.symm.trans eq
  exact ne.symm

/-- The last answer of an invalidation round. -/
theorem last_collected (m : Meets P marks n b e B r) (starved wild : Prop)
    (kind : r.kind = .invack) {i : NodeId} (mode : B.mode = .invalidate i) (last : e.invAckWaiting = 1) :
    B.Steps (Legal P starved wild B r) ((counted B r.src).after (.collected i)) ∧
      ((counted B r.src).slot i).phase = .waiting ∧
      ∀ o, ((counted B r.src).slot i).probe ≠ .sent o := by
  have ne := m.collector kind mode
  have empty : (counted B r.src).owing = ∅ := by
    have card := (m.awaited kind (.inl ⟨i, mode⟩)).1
    rw [← Finset.card_eq_zero]
    omega
  refine ⟨?_, ?_, ?_⟩
  · have first : B.Steps (Legal P starved wild B r) (B.after (.collect i r.src)) :=
      .single (.silent trivial rfl rfl nofun) ⟨m.quiet, mode, m.answered .ack kind⟩
    have second : (counted B r.src).Steps (Legal P starved wild B r)
        ((counted B r.src).after (.collected i)) :=
      .single (.silent trivial rfl rfl nofun) ⟨m.counted_quiet, mode, empty⟩
    exact first.trans second
  · rw [counted_slot_of_ne ne]
    exact m.waiting (by simp [mode, Mode.requester])
  · intro o sent
    rw [counted_slot_of_ne ne] at sent
    have rights := m.inv.rights
    simp only [Block.ModeOk, mode] at rights
    by_cases mem : i ∈ B.members
    · cases ((rights i mem).1 rfl).1.symm.trans sent
    · cases (m.inv.outsiders i mem).symm.trans sent

theorem collected_serve (m : Meets P marks n b e B r) (kind : r.kind = .invack) {i : NodeId}
    {tag : BlockId} {st : CoherenceStats → CoherenceStats}
    (mode : B.mode = .invalidate i) (last : e.invAckWaiting = 1) (mem : i ∈ B.members)
    (next : e'.state = .M) (blockId : e'.blockId = b)
    (members : Members n e'.presence e'.activeSharers (B.members.erase r.src)) (tagged : tag = b) :
    ∃ B', Refines P marks n b starved wild B r
      { entry := e', sends := [{ dest := i, tag := tag, kind := .ack }], stats := st } B' := by
  have ne := m.collector kind mode
  obtain ⟨steps, waiting, unsent⟩ := m.last_collected starved wild kind mode last
  have after : (counted B r.src).after (.collected i) =
      (counted B r.src).serve i .ack (.exclusive i false) (B.members.erase r.src) := by
    simp [Block.after, mem, ne]
  rw [after] at steps
  refine ⟨_, steps, .stable rfl next blockId members (ownerless rfl), fun j => ?_, ?_, by simp,
    by simp, ?_⟩
  · have second := moves_serve_waiting m.counted_quiet waiting unsent .ack (.exclusive i false)
      (B.members.erase r.src) j
    simpa [Outcome.taken, Outcome.sent, Outcome.fetch, grantKind] using
      (m.counted_moves kind j).trans second
  · simp [tagged]
  · exact fun _ _ collecting => absurd collecting (not_collecting rfl)

theorem collected_fetch (m : Meets P marks n b e B r) (kind : r.kind = .invack) {i : NodeId}
    {tag : BlockId} {st : CoherenceStats → CoherenceStats}
    (mode : B.mode = .invalidate i) (last : e.invAckWaiting = 1) (fresh : i ∉ B.members)
    (next : e'.state = .M) (blockId : e'.blockId = b)
    (members : Members n e'.presence e'.activeSharers (insert i (B.members.erase r.src)))
    (tagged : tag = b) :
    ∃ B', Refines P marks n b starved wild B r
      { entry := e', schedule := some (tag, i), stats := st } B' := by
  have ne := m.collector kind mode
  obtain ⟨steps, waiting, unsent⟩ := m.last_collected starved wild kind mode last
  have after : (counted B r.src).after (.collected i) =
      (counted B r.src).fetch i .data (.exclusive i false) (insert i (B.members.erase r.src)) := by
    simp [Block.after, fresh]
  rw [after] at steps
  refine ⟨_, steps, .stable rfl next blockId members (ownerless rfl), fun j => ?_, by simp, ?_,
    by simp, ?_⟩
  · have second := moves_fetch_waiting m.counted_quiet waiting .data (.exclusive i false)
      (insert i (B.members.erase r.src)) j
    simpa [Outcome.taken, Outcome.sent, Outcome.fetch] using (m.counted_moves kind j).trans second
  · simp [tagged]
  · exact fun _ _ collecting => absurd collecting (not_collecting rfl)

theorem invackSM (m : Meets P marks n b e B r) (state : e.state = .SM) (kind : r.kind = .invack)
    {tooMany : String} {o : Outcome} (step : invackSM e r tooMany = .ok o) :
    ∃ B', Refines P marks n b starved wild B r o B' := by
  obtain ⟨i, mode⟩ := m.named state
  have collecting : B.Collecting := .inl ⟨i, mode⟩
  obtain ⟨rfl, bound⟩ := m.entry.requester i (by simp [mode, Mode.requester])
  have ne := m.collector kind mode
  have dropped := m.entry.members.drop m.small (Finset.mem_filter.mp (m.owes kind)).1
  have present := dropped.presence e.reqNodeInTransient
  rw [Finset.mem_erase, and_iff_right ne] at present
  unfold Outcome.invackSM at step
  rw [if_pos (m.awaited kind collecting).2] at step
  simp only at step
  split at step
  · next zero =>
      have last : e.invAckWaiting = 1 := by omega
      split at step
      · next here =>
          cases step
          exact m.collected_serve kind mode last (present.mp here) rfl m.entry.blockId dropped m.block
      · next absent =>
          cases step
          have fresh := mt present.mpr absent
          exact m.collected_fetch kind mode last fresh rfl m.entry.blockId
            (dropped.add m.small bound (mt Finset.mem_of_mem_erase fresh)) m.block
  · next more =>
      cases step
      have more' : e.invAckWaiting ≠ 1 := by omega
      exact m.collectOn kind collecting (v := .collect _ r.src) rfl
        ⟨m.quiet, mode, m.answered .ack kind⟩ (.silent trivial rfl rfl (by simp)) more'
        (fun _ mode => m.collector kind mode) rfl m.entry.blockId dropped rfl rfl rfl rfl

/-! ## Owned rounds -/

/-- Who answers an owned round is neither its owner nor its requester. -/
theorem collectorOwned (m : Meets P marks n b e B r) (kind : r.kind = .invack) {o i : NodeId}
    {c recalled : Bool} (mode : B.mode = .reclaim o i c recalled) :
    recalled = false ∧ o ≠ r.src ∧ i ≠ r.src := by
  rcases (m.inv.answered_ack (m.answered .ack kind)).2 with
    ⟨_, eq, -⟩ | ⟨_, _, _, eq, own, req⟩ <;> cases mode.symm.trans eq
  exact ⟨rfl, own.symm, req.symm⟩

theorem owner_mem (m : Meets P marks n b e B r) {o i : NodeId} {c recalled : Bool}
    (mode : B.mode = .reclaim o i c recalled) : o ∈ B.members := by
  have rights := m.inv.rights
  cases recalled <;> simp only [Block.ModeOk, mode] at rights <;> exact rights.1

/-- The first event of an owned round's last answer. -/
theorem last_owned (m : Meets P marks n b e B r) (starved wild : Prop)
    (kind : r.kind = .invack) {o i : NodeId} {c : Bool} (mode : B.mode = .reclaim o i c false)
    (last : e.invAckWaiting = 1) :
    B.Steps (Legal P starved wild B r) (counted B r.src) ∧ (counted B r.src).owing = ∅ ∧
      ((counted B r.src).slot o).probe = .idle := by
  obtain ⟨-, own, -⟩ := m.collectorOwned kind mode
  have empty : (counted B r.src).owing = ∅ := by
    have card := (m.awaited kind (.inr ⟨o, i, c, mode⟩)).1
    rw [← Finset.card_eq_zero]
    omega
  refine ⟨?_, empty, ?_⟩
  · have enabled : B.Enabled (.collectOwned o i r.src c) :=
      ⟨m.quiet, mode, m.answered .ack kind⟩
    exact Block.Steps.single (.silent trivial rfl rfl nofun) enabled
  · rw [counted_slot_of_ne own]
    have rights := m.inv.rights
    simp only [Block.ModeOk, mode] at rights
    rcases rights.2.1 with holds | ⟨-, sent, -⟩
    · exact holds.1
    · have owes : o ∈ (counted B r.src).owing := by
        rw [counted_owing]
        exact Finset.mem_erase.mpr ⟨own, Finset.mem_filter.mpr ⟨rights.1, .inl sent⟩⟩
      rw [empty] at owes
      cases owes

/-- The owner was the requester and nobody else is left. -/
theorem upgradeOwner (m : Meets P marks n b e B r) (kind : r.kind = .invack) {o i : NodeId}
    {c : Bool} (mode : B.mode = .reclaim o i c false) (self : i = o) (last : e.invAckWaiting = 1)
    (alone : B.members.erase r.src ⊆ {o}) (next : e'.state = .M) (blockId : e'.blockId = b)
    (members : Members n e'.presence e'.activeSharers (B.members.erase r.src)) :
    ∃ B', Refines P marks n b starved wild B r
      { entry := e', sends := [{ dest := i, tag := r.block, kind := .ack }] } B' := by
  subst i
  obtain ⟨-, own, -⟩ := m.collectorOwned kind mode
  obtain ⟨first, empty, idle⟩ := m.last_owned starved wild kind mode last
  have waiting : ((counted B r.src).slot o).phase = .waiting := by
    rw [counted_slot_of_ne own]
    exact m.waiting (by simp [mode, Mode.requester])
  have unsent : ∀ o', ((counted B r.src).slot o).probe ≠ .sent o' := by
    intro o' sent
    cases idle.symm.trans sent
  have second : (counted B r.src).Steps (Legal P starved wild B r)
      ((counted B r.src).after (.upgradeOwner o c)) :=
    .single (.silent trivial rfl rfl (by simp)) ⟨m.counted_quiet, mode, alone, empty⟩
  refine ⟨(counted B r.src).serve o .ack (.exclusive o false) (B.members.erase r.src),
    first.trans second, .stable rfl next blockId members (ownerless rfl), fun j => ?_, ?_, by simp, by simp,
    fun _ _ collecting => absurd collecting (not_collecting rfl)⟩
  · have serve := moves_serve_waiting m.counted_quiet waiting unsent .ack (.exclusive o false)
      (B.members.erase r.src) j
    simpa [Outcome.taken, Outcome.sent, Outcome.fetch, grantKind] using
      (m.counted_moves kind j).trans serve
  · simp [m.block]

/-- Only the owner is left to be told. -/
theorem recallOwner (m : Meets P marks n b e B r) (kind : r.kind = .invack) {o i : NodeId}
    {c : Bool} (mode : B.mode = .reclaim o i c false) (last : e.invAckWaiting = 1)
    (state : e'.state = e.state) (blockId : e'.blockId = b)
    (members : Members n e'.presence e'.activeSharers (B.members.erase r.src))
    (req : e'.reqNodeInTransient = e.reqNodeInTransient) (owner : e'.oFId = o) :
    ∃ B', Refines P marks n b starved wild B r
      { entry := e', sends := [{ dest := o, tag := r.block, kind := .recallGotoI }] } B' := by
  obtain ⟨first, empty, idle⟩ := m.last_owned starved wild kind mode last
  have second : (counted B r.src).Steps (Legal P starved wild B r)
      ((counted B r.src).after (.recallOwner o i c)) :=
    .single (.silent trivial rfl rfl (by simp)) ⟨m.counted_quiet, mode, empty⟩
  obtain ⟨req', bound⟩ := m.entry.requester i (by simp [mode, Mode.requester])
  have stands : e.state = if c then .FM else .OM := by
    simpa [Stands, mode] using m.entry.stands
  refine ⟨{ (counted B r.src).modify o (.send .giveBack) with mode := .reclaim o i c true },
    first.trans second, .recalled (i := i) (o := o) rfl bound (state.trans stands) blockId members
      (req.trans req') owner, fun j => ?_, ?_, by simp, by simp, ?_⟩
  · have send := moves_send m.counted_quiet idle .giveBack j
    simpa [Outcome.taken, Outcome.sent, Outcome.fetch, orderMessage] using
      (m.counted_moves kind j).trans send
  · simp [m.block]
  · rintro _ _ (⟨_, eq⟩ | ⟨_, _, _, eq⟩) <;> cases eq

/-- (OM, INVACK) and (FM, INVACK). -/
theorem invackOwned (m : Meets P marks n b e B r) (kind : r.kind = .invack) {o i : NodeId}
    {c recalled : Bool} (mode : B.mode = .reclaim o i c recalled) {tooMany : String} {out : Outcome}
    (step : invackOwned e r tooMany = .ok out) :
    ∃ B', Refines P marks n b starved wild B r out B' := by
  obtain ⟨rfl, own, req⟩ := m.collectorOwned kind mode
  have collecting : B.Collecting := .inr ⟨o, i, c, mode⟩
  obtain ⟨rfl, bound⟩ := m.entry.requester i (by simp [mode, Mode.requester])
  obtain rfl := m.entry.owner o (by simp [mode, Mode.owner])
  have dropped := m.entry.members.drop m.small (Finset.mem_filter.mp (m.owes kind)).1
  unfold Outcome.invackOwned at step
  rw [if_pos (m.awaited kind collecting).2] at step
  simp only at step
  split at step
  · next zero =>
      have last : e.invAckWaiting = 1 := by omega
      split at step
      · next here =>
          cases step
          obtain ⟨one, same⟩ := here
          have own_mem : e.oFId ∈ B.members.erase r.src :=
            Finset.mem_erase.mpr ⟨own, m.owner_mem mode⟩
          have single : B.members.erase r.src = {e.oFId} := by
            obtain ⟨a, eq⟩ := Finset.card_eq_one.mp (dropped.count.symm.trans one)
            rw [eq, Finset.mem_singleton] at own_mem
            rw [eq, own_mem]
          exact m.upgradeOwner kind mode same last single.subset rfl m.entry.blockId dropped
      · cases step
        exact m.recallOwner kind mode last rfl m.entry.blockId dropped rfl rfl
  · next more =>
      cases step
      have more' : e.invAckWaiting ≠ 1 := by omega
      refine m.collectOn kind collecting (v := .collectOwned _ _ r.src c) rfl
        ⟨m.quiet, mode, m.answered .ack kind⟩ (.silent trivial rfl rfl (by simp)) more' ?_ rfl
        m.entry.blockId dropped rfl rfl rfl rfl
      intro _ eq
      cases mode.symm.trans eq

/-- (OM, DATA) and (FM, DATA). -/
theorem dataOwned (m : Meets P marks n b e B r) (kind : r.kind = .data) {o i : NodeId}
    {c recalled : Bool} (mode : B.mode = .reclaim o i c recalled) (always : Bool) :
    ∃ B', Refines P marks n b starved wild B r (dataOwned e r always) B' := by
  have answered := m.answered .data kind
  have holder : o = r.src ∧ recalled = true := by
    rcases m.inv.answered_data answered with ⟨_, eq⟩ | ⟨_, eq⟩ | ⟨_, _, eq⟩ | ⟨_, _, eq⟩ <;>
      cases mode.symm.trans eq
    exact ⟨rfl, rfl⟩
  obtain ⟨rfl, rfl⟩ := holder
  have requester : B.mode.requester = some i := by simp [mode, Mode.requester]
  obtain ⟨rfl, bound⟩ := m.entry.requester i requester
  have owner := m.entry.owner r.src (by simp [mode, Mode.owner])
  have dropped := m.entry.members.drop m.small (m.owner_mem mode)
  have unsent : ∀ o, (B.slot e.reqNodeInTransient).probe ≠ .sent o := by
    intro o sent
    have rights := m.inv.rights
    simp only [Block.ModeOk, mode] at rights
    by_cases eq : e.reqNodeInTransient = r.src
    · rw [eq] at sent
      cases answered.symm.trans sent
    · by_cases mem : e.reqNodeInTransient ∈ B.members
      · cases (rights.2.2 _ mem eq).2.1.symm.trans sent
      · cases (m.inv.outsiders _ mem).symm.trans sent
  have enabled : B.Enabled (.reclaimed r.src e.reqNodeInTransient c) := ⟨m.quiet, mode, answered⟩
  unfold Outcome.dataOwned
  simp only [owner]
  split
  · next here =>
      have mem := (dropped.presence _).mp here
      have after : B.after (.reclaimed r.src e.reqNodeInTransient c) =
          (B.modify r.src .settle).serve e.reqNodeInTransient .ack
            (.exclusive e.reqNodeInTransient false) (B.members.erase r.src) := if_pos mem
      exact m.answer kind after enabled (.silent trivial rfl rfl (by simp)) requester unsent rfl rfl
        m.entry.blockId dropped (ownerless rfl)
  · next absent =>
      have fresh := mt (dropped.presence _).mpr absent
      have after : B.after (.reclaimed r.src e.reqNodeInTransient c) =
          (B.modify r.src .settle).serve e.reqNodeInTransient .data
            (.exclusive e.reqNodeInTransient false)
            (insert e.reqNodeInTransient (B.members.erase r.src)) := if_neg fresh
      exact m.answer kind after enabled (.silent trivial rfl rfl (by simp)) requester unsent rfl rfl
        m.entry.blockId (dropped.add m.small bound fresh) (ownerless rfl)

/-- Nobody but the owner and the requester is left to be told. -/
theorem reclaimAlone (m : Meets P marks n b e B r) {o : NodeId} {c : Bool}
    (mode : B.mode = .owned o c) {q : Request} (kind : r.kind = requestKind q) (write : q ≠ .read)
    (alone : (B.members.erase o).erase r.src = ∅) (state : e'.state = if c then .FM else .OM)
    (blockId : e'.blockId = b) (members : Members n e'.presence e'.activeSharers B.members)
    (req : e'.reqNodeInTransient = r.src) (owner : e'.oFId = o) :
    ∃ B', Refines P marks n b starved wild B r
      { entry := e', sends := [{ dest := o, tag := r.block, kind := .recallGotoI }] } B' := by
  obtain ⟨mem, idle⟩ := m.owned_idle mode
  let X := B.purge ∅ r.src (.reclaim o r.src c false)
  have after : B.after (.reclaim o r.src c false) = X := by
    have targets : (if false = true then B.members else B.members.erase o).erase r.src = ∅ := alone
    simp only [Block.after, targets, X]
  have moves : ∀ j, Moves (B.slot j) (X.slot j) (addressed j [(r.src, requestKind q)]) [] none :=
    moves_purge m.quiet (m.asked kind) (by simp) List.nodup_nil (by simp) _
  have quiet : X.Quiet := fun j => (moves j).quiet
  have idle' : (X.slot o).probe = .idle := by
    simp only [X, Block.purge_slot, Block.modify_slot, Block.order_slot]
    split <;> exact idle o mem
  have first : B.Steps (Legal P starved wild B r) X := by
    have enabled : B.Enabled (.reclaim o r.src c false) :=
      ⟨m.quiet, mode, m.asksWrite kind write, (by simp)⟩
    exact after ▸ Block.Steps.single (.asking trivial rfl rfl kind (m.asked kind) (by simp) (by simp)) enabled
  have second : X.Steps (Legal P starved wild B r) (X.after (.recallOwner o r.src c)) :=
    .single (.silent trivial rfl rfl (by simp))
      ⟨quiet, rfl, owing_purge idle (Finset.empty_subset _)⟩
  refine ⟨{ X.modify o (.send .giveBack) with mode := .reclaim o r.src c true }, first.trans second,
    .recalled (i := r.src) (o := o) rfl m.src state blockId members req owner, fun j => ?_, ?_, (by simp),
    (by simp), ?_⟩
  · have sent := moves_send quiet idle' .giveBack j
    simpa [Outcome.taken, Outcome.sent, Outcome.fetch, orderMessage, kind] using
      (moves j).trans sent
  · simp [m.block]
  · rintro _ _ (⟨_, eq⟩ | ⟨_, _, _, eq⟩) <;> cases eq

/-- (O, GETM) and (F, GETM). -/
theorem reclaim (m : Meets P marks s.numProcs b e B r) {o : NodeId} {c : Bool}
    (mode : B.mode = .owned o c) {q : Request} (kind : r.kind = requestKind q) (write : q ≠ .read)
    {next : DirState} (step : next = if c then .FM else .OM) :
    ∃ B', Refines P marks s.numProcs b starved wild B r (reclaim s e r next) B' := by
  obtain rfl := m.entry.owner o (by simp [mode, Mode.owner])
  have nodup := Members.nodup_presentExcept e s.numProcs fun i => i ≠ r.src && i ≠ e.oFId
  have listed : ∀ j, j ∈ e.presentExcept s.numProcs (fun i => i ≠ r.src && i ≠ e.oFId) ↔
      j ∈ (B.members.erase e.oFId).erase r.src := by
    intro j
    rw [m.entry.members.mem_presentExcept le_rfl]
    simp
    tauto
  unfold Outcome.reclaim
  simp only
  split
  · next zero =>
      have none := List.length_eq_zero_iff.mp zero
      have alone : (B.members.erase e.oFId).erase r.src = ∅ := by
        ext j
        rw [← listed, none]
        simp
      simp only [Outcome.invalidate, none, List.map_nil, List.nil_append]
      exact m.reclaimAlone mode kind write alone step m.entry.blockId m.entry.members rfl rfl
  · next more =>
      refine m.reclaimAmong false mode kind write nofun nofun nodup listed step
        m.entry.blockId m.entry.members rfl rfl rfl fun _ none => more ?_
      exact List.length_eq_zero_iff.mpr none

/-! ## Eviction notices -/

theorem noticed (m : Meets P marks n b e B r) (kind : r.kind = .dataWb)
    (stable : B.mode.requester = none) {st : CoherenceStats → CoherenceStats}
    (stands : Stands P e'.state (B.mode.without (B.members.erase r.src) r.src))
    (blockId : e'.blockId = b)
    (members : Members n e'.presence e'.activeSharers (B.members.erase r.src))
    (owner : ∀ o, (B.mode.without (B.members.erase r.src) r.src).owner = some o → e'.oFId = o) :
    ∃ B', Refines P marks n b starved wild B r { entry := e', stats := st } B' := by
  have notice : 0 < (B.slot r.src).writebacks := notice_of_up (kind ▸ m.here)
  have rest : (B.mode.without (B.members.erase r.src) r.src).requester = none :=
    Block.without_stable stable _ _
  refine ⟨B.after (.writeback r.src), ?_⟩
  constructor
  case steps => exact .single (.notice kind) ⟨m.quiet, stable, notice⟩
  case entry => exact .stable rest stands blockId members owner
  case moves =>
    intro j
    change Moves _ ((B.modify r.src .noted).slot j) _ _ _
    simpa [Outcome.taken, Outcome.sent, Outcome.fetch, addressed_cons, kind] using
      moves_modify m.quiet (.noted (m.quiet r.src) notice) j
  case awaits => exact fun _ _ collecting => absurd collecting (not_collecting rest)
  all_goals simp

/-- A line that keeps a member after a notice keeps its mode, unless its owner left. -/
theorem without_of_nonempty {mode : Mode NodeId} {t : Finset NodeId} {i : NodeId}
    (some : t ≠ ∅) (stays : mode.owner ≠ Option.some i) : mode.without t i = mode := by
  unfold Mode.without
  rw [if_neg some]
  cases mode with
  | owned o c =>
      have ne : i ≠ o := by
        rintro rfl
        exact stays rfl
      exact if_neg ne
  | _ => rfl

theorem owned_of_stable {mode : Mode NodeId} {o : NodeId} (stable : mode.requester = none)
    (owner : mode.owner = some o) : ∃ c, mode = .owned o c := by
  cases mode <;> simp_all [Mode.requester, Mode.owner]

theorem writeback_stable (m : Meets P marks n b e B r) (kind : r.kind = .dataWb)
    (stable : B.mode.requester = none) {st : CoherenceStats → CoherenceStats} :
    ∃ B', Refines P marks n b starved wild B r { entry := e.writeback r, stats := st } B' := by
  have members := m.entry.members.forget r.src
  have count := members.count
  unfold DirEntry.writeback
  simp only
  split
  · next zero =>
      have empty : B.members.erase r.src = ∅ := by
        rw [zero, eq_comm, Finset.card_eq_zero] at count
        exact count
      have idle : B.mode.without (B.members.erase r.src) r.src = .idle := if_pos empty
      refine m.noticed kind stable ?_ ((forget_blockId e _).trans m.entry.blockId) members ?_
      · rw [idle]
        rfl
      · rw [idle]
        exact ownerless rfl
  · next more =>
      have some : B.members.erase r.src ≠ ∅ := by
        intro empty
        rw [empty, Finset.card_empty] at count
        exact more count
      have not_holder : ∀ h c, B.mode = .exclusive h c → r.src ∉ B.members := by
        intro h c mode mem
        rw [(m.holder mode).2.1, Finset.mem_singleton] at mem
        exact some (by rw [(m.holder mode).2.1, mem, Finset.erase_singleton])
      split
      · next left =>
          have owned : ∃ c, B.mode = .owned r.src c := by
            rcases left with ⟨isM, present⟩ | ⟨isM | isO | isF, present, owner⟩
            · obtain ⟨h, mode⟩ := m.named isM
              exact absurd ((m.entry.members.presence _).mp present) (not_holder h _ mode)
            · obtain ⟨h, mode⟩ := m.named isM
              exact absurd ((m.entry.members.presence _).mp present) (not_holder h _ mode)
            · obtain ⟨o, mode⟩ := m.named isO
              rw [owner, m.entry.owner o (by simp [mode, Mode.owner])]
              exact ⟨_, mode⟩
            · obtain ⟨o, mode⟩ := m.named isF
              rw [owner, m.entry.owner o (by simp [mode, Mode.owner])]
              exact ⟨_, mode⟩
          obtain ⟨c, mode⟩ := owned
          have shared : B.mode.without (B.members.erase r.src) r.src = .shared := by
            simp [Mode.without, some, mode]
          refine m.noticed kind stable ?_ ((forget_blockId e _).trans m.entry.blockId) members ?_
          · rw [shared]
            rfl
          · rw [shared]
            exact ownerless rfl
      · next stays =>
          have same : B.mode.without (B.members.erase r.src) r.src = B.mode := by
            refine without_of_nonempty some fun owner => stays (.inr ?_)
            obtain ⟨c, mode⟩ := owned_of_stable stable owner
            have stands : e.state = if c then .F else .O := by
              simpa only [mode, Stands] using m.entry.stands
            refine ⟨?_, (m.entry.members.presence _).mpr (m.owned_idle mode).1,
              (m.entry.owner _ owner).symm⟩
            cases c <;> simp [stands]
          refine m.noticed kind stable ?_ ((forget_blockId e _).trans m.entry.blockId) members ?_
          · rw [same]
            simpa only [forget_state] using m.entry.stands
          · rw [same]
            simpa only [forget_oFId] using m.entry.owner

theorem handleWriteback (m : Meets P marks n b e B r) {o : Outcome}
    (step : handleWriteback e r = some o) : ∃ B', Refines P marks n b starved wild B r o B' := by
  unfold Coherence.handleWriteback at step
  split at step
  · cases step
  · next kind =>
      rw [ne_eq, not_not] at kind
      split at step <;> cases step
      case h_1 state | h_2 state => exact m.writeback_stable kind (by rw [m.named state]; rfl)
      case h_3 state | h_4 state | h_5 state | h_6 state =>
        obtain ⟨_, mode⟩ := m.named state
        exact m.writeback_stable kind (by rw [mode]; rfl)
      case h_7 => exact m.cycle

end Meets

end

end Coherence
