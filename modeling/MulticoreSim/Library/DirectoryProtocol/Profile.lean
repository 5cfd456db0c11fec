import MulticoreSim.Library.DirectoryProtocol.Preservation

/-! # Protocols of the family

A protocol need not use every mode, request or order. What it leaves out stays
out in every run.
-/

namespace DirectoryProtocol

/-- What a protocol of the family makes use of. -/
structure Profile where
  /-- Copies are handed out for reading. -/
  reads : Bool
  /-- The first reader becomes a clean exclusive holder. -/
  clean : Bool
  /-- A holder that serves a reader stays on as owner. -/
  owners : Bool
  clean_reads : clean = true → reads = true
  owners_reads : owners = true → reads = true

namespace Profile

variable {ι : Type} (P : Profile)

def Request : DirectoryProtocol.Request → Prop
  | .read => P.reads = true
  | .write => True
  | .upgrade => P.clean = true

def Grant : DirectoryProtocol.Grant → Prop
  | .data => True
  | .cleanExclusive => P.clean = true
  | .ack => P.reads = true

def Order : DirectoryProtocol.Order → Prop
  | .invalidate => P.reads = true
  | .giveBack => True
  | .share => P.reads = true ∧ P.owners = false
  | .own _ => P.owners = true

def Mode : DirectoryProtocol.Mode ι → Prop
  | .idle | .takeover .. => True
  | .exclusive _ c => c = true → P.clean = true
  | .shared | .invalidate _ => P.reads = true
  | .downgrade .. => P.reads = true ∧ P.owners = false
  | .owned _ c | .forward _ _ c | .reclaim _ _ c _ =>
      P.owners = true ∧ (c = true → P.clean = true)

/-- The events a protocol chooses among. -/
def Event : DirectoryProtocol.Event ι → Prop
  | .ask _ r => P.Request r
  | .grantShared _ => P.reads = true ∧ P.clean = false
  | .grantClean _ => P.clean = true
  | .downgrade .. => P.reads = true ∧ P.owners = false
  | .forward .. => P.owners = true
  | _ => True

/-- What a slot's messages may be. -/
structure Slot (s : DirectoryProtocol.Slot) : Prop where
  asked : ∀ r, s.phase = .asked r → P.Request r
  promised : ∀ g, s.phase = .fetching g ∨ s.phase = .granted g → P.Grant g
  sent : ∀ o, s.probe = .sent o → P.Order o

/-- A line within the profile. -/
structure Within (B : Block ι) : Prop where
  mode : P.Mode B.mode
  slot : ∀ i, P.Slot (B.slot i)

theorem Within.initial : P.Within (Block.initial ι) :=
  ⟨trivial, fun _ => by constructor <;> simp [Block.initial]⟩

variable {P}

namespace Slot

variable {s : DirectoryProtocol.Slot}

theorem ask (within : P.Slot s) {r : DirectoryProtocol.Request} (ok : P.Request r) :
    P.Slot (s.ask r) := by
  constructor
  · rintro r' ⟨⟩
    exact ok
  · rintro g (fetching | granted)
    · cases fetching
    · cases granted
  · exact within.sent

theorem accept (within : P.Slot s) : P.Slot s.accept := by
  constructor
  · rintro r ⟨⟩
  · rintro g (fetching | granted)
    · cases fetching
    · cases granted
  · exact within.sent

theorem answer (within : P.Slot s) (right : Right) (reply : Reply) :
    P.Slot (s.answer right reply) := by
  constructor
  · exact within.asked
  · exact within.promised
  · rintro o ⟨⟩

theorem wait (within : P.Slot s) : P.Slot s.wait := by
  constructor
  · rintro r ⟨⟩
  · rintro g (fetching | granted)
    · cases fetching
    · cases granted
  · exact within.sent

theorem grant (within : P.Slot s) {g : DirectoryProtocol.Grant} (ok : P.Grant g) :
    P.Slot (s.grant g) := by
  constructor
  · rintro r ⟨⟩
  · rintro g' (fetching | granted)
    · cases fetching
    · cases granted
      exact ok
  · exact within.sent

theorem fetch (within : P.Slot s) {g : DirectoryProtocol.Grant} (ok : P.Grant g) :
    P.Slot (s.fetch g) := by
  constructor
  · rintro r ⟨⟩
  · rintro g' (fetching | granted)
    · cases fetching
      exact ok
    · cases granted
  · exact within.sent

theorem send (within : P.Slot s) {o : DirectoryProtocol.Order} (ok : P.Order o) :
    P.Slot (s.send o) := by
  constructor
  · exact within.asked
  · exact within.promised
  · rintro o' ⟨⟩
    exact ok

theorem settle (within : P.Slot s) : P.Slot s.settle := by
  constructor
  · exact within.asked
  · exact within.promised
  · rintro o ⟨⟩

/-- Copies and eviction notices do not matter. -/
theorem copy (within : P.Slot s) (writebacks : Nat) (resident : Bool) :
    P.Slot { s with writebacks := writebacks, resident := resident } :=
  ⟨within.asked, within.promised, within.sent⟩

end Slot

variable [DecidableEq ι] {B : Block ι}

theorem Within.modify (within : P.Within B) {i : ι} {f : DirectoryProtocol.Slot → DirectoryProtocol.Slot}
    (at_i : P.Slot (f (B.slot i))) : P.Within (B.modify i f) := by
  refine ⟨within.mode, fun j => ?_⟩
  rw [Block.modify_slot]
  split
  · subst j
    exact at_i
  · exact within.slot j

omit [DecidableEq ι] in
theorem Within.retarget (within : P.Within B) {m : DirectoryProtocol.Mode ι} (mode : P.Mode m)
    (s : Finset ι) : P.Within { B with mode := m, members := s } :=
  ⟨mode, within.slot⟩

theorem Within.tell (within : P.Within B) {h i : ι} {o : DirectoryProtocol.Order}
    {m : DirectoryProtocol.Mode ι} (order : P.Order o) (mode : P.Mode m) :
    P.Within (B.tell h i o m) := by
  have told := within.modify (i := h) ((within.slot h).send order)
  exact (told.modify (i := i) (told.slot i).wait).retarget mode B.members

theorem Within.purge (within : P.Within B) {s : Finset ι} {i : ι}
    {m : DirectoryProtocol.Mode ι} (order : P.Order .invalidate) (mode : P.Mode m) :
    P.Within (B.purge s i m) := by
  have told : P.Within (B.order s .invalidate) := by
    refine ⟨within.mode, fun j => ?_⟩
    rw [Block.order_slot]
    split
    · exact (within.slot j).send order
    · exact within.slot j
  exact (told.modify (i := i) (told.slot i).wait).retarget mode B.members

theorem Within.serve (within : P.Within B) {i : ι} {g : DirectoryProtocol.Grant}
    {m : DirectoryProtocol.Mode ι} {s : Finset ι} (grant : P.Grant g) (mode : P.Mode m) :
    P.Within (B.serve i g m s) :=
  (within.modify (i := i) ((within.slot i).grant grant)).retarget mode s

theorem Within.fetch (within : P.Within B) {i : ι} {g : DirectoryProtocol.Grant}
    {m : DirectoryProtocol.Mode ι} {s : Finset ι} (grant : P.Grant g) (mode : P.Mode m) :
    P.Within (B.fetch i g m s) :=
  (within.modify (i := i) ((within.slot i).fetch grant)).retarget mode s

theorem Within.settle (within : P.Within B) (i : ι) : P.Within (B.modify i .settle) :=
  within.modify (within.slot i).settle

theorem mode_without {m : DirectoryProtocol.Mode ι} (mode : P.Mode m) (s : Finset ι) (i : ι) :
    P.Mode (m.without s i) := by
  unfold DirectoryProtocol.Mode.without
  split
  · trivial
  · cases m with
    | owned o c =>
        simp only
        split
        · exact P.owners_reads mode.1
        · exact mode
    | _ => exact mode

/-- Events of the protocol keep a line within its profile. -/
theorem Within.after (within : P.Within B) {e : DirectoryProtocol.Event ι} (enabled : B.Enabled e)
    (chosen : P.Event e) : P.Within (B.after e) := by
  have mode := within.mode
  cases e <;> simp only [Block.after]
  case ask i r => exact within.modify ((within.slot i).ask chosen)
  case accept i => exact within.modify (within.slot i).accept
  case drop i | surrender i | share i | own i _ => exact within.modify ((within.slot i).answer _ _)
  case evict i | lose i | refill i => exact within.modify ((within.slot i).copy _ _)
  case respond i g =>
      exact within.modify ((within.slot i).grant ((within.slot i).promised g (.inl enabled)))
  case grantExclusive i => exact within.fetch trivial (by intro h; cases h)
  case grantShared i => exact within.fetch trivial chosen.1
  case grantClean i => exact within.fetch chosen (fun _ => chosen)
  case join i =>
      rw [enabled.2.1] at mode
      exact within.fetch trivial mode
  case promote h i =>
      rw [enabled.2.1] at mode
      exact within.serve (P.clean_reads (mode rfl)) (by intro h; cases h)
  case takeover h i c => exact within.tell trivial trivial
  case downgrade h i c => exact within.tell chosen chosen
  case forward o i c k =>
      refine within.tell chosen ⟨chosen, ?_⟩
      rcases enabled.2.1 with eq | eq <;> rw [eq] at mode
      · exact mode
      · exact mode.2
  case takenOver h i => exact (within.settle h).serve trivial (by intro h; cases h)
  case downgraded h i =>
      rw [enabled.2.1] at mode
      exact (within.settle h).serve trivial mode.1
  case forwarded o i c =>
      rw [enabled.2.1] at mode
      exact (within.settle o).serve trivial mode
  case upgrade i =>
      rw [enabled.2.1] at mode
      exact within.serve mode (by intro h; cases h)
  case invalidate i =>
      rw [enabled.2.1] at mode
      exact within.purge mode mode
  case collect r i => exact (within.settle i).retarget mode _
  case collected r =>
      rw [enabled.2.1] at mode
      split
      · exact within.serve mode (by intro h; cases h)
      · exact within.fetch trivial (by intro h; cases h)
  case reclaim o i c all =>
      rw [enabled.2.1] at mode
      exact within.purge (P.owners_reads mode.1) mode
  case collectOwned o r i c => exact (within.settle i).retarget mode _
  case upgradeOwner o c =>
      rw [enabled.2.1] at mode
      exact within.serve (P.owners_reads mode.1) (by intro h; cases h)
  case recallOwner o r c =>
      rw [enabled.2.1] at mode
      exact (within.modify ((within.slot o).send (o := .giveBack) trivial)).retarget
        (m := .reclaim o r c true) mode _
  case reclaimed o r c =>
      rw [enabled.2.1] at mode
      split
      · exact (within.settle o).serve (P.owners_reads mode.1) (by intro h; cases h)
      · exact (within.settle o).serve trivial (by intro h; cases h)
  case writeback i =>
      exact (within.modify (f := .noted) ((within.slot i).copy _ _)).retarget (mode_without mode _ _) _

end Profile

end DirectoryProtocol
