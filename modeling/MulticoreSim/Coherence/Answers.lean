import MulticoreSim.Library.DirectoryProtocol.Grants
import MulticoreSim.Coherence.Bookkeeping

/-! # Every message finds an answer

What a line must be like for no agent to throw on the message its node takes in,
and which messages the directory must not take up for lines to stay so. The
directory itself has an answer to everything that reaches it.
-/

namespace Coherence

open DirectoryProtocol

variable {F : ProtocolFsm} {π : CpuPort} {L : Laws F} {R : π.State → BlockId → Prop} {s : Settings}
  {σ σ' : System F π} {b : BlockId} {B B' : Block NodeId} {i : NodeId} {strict : Prop}

/-! ## Agents -/

/-- An agent that wants to write takes data; where `strict`, unless it is an owner. -/
def TakesData (L : Laws F) (strict : Prop) : Prop :=
  ∀ a, (L.view a).want = .write → (strict → (L.view a).right ≠ .owned) →
    ∃ t, F.processNtwkRequest a .data = .ok t

theorem mi_takesData : TakesData miNetwork False := by
  intro a write _
  cases a <;> first | exact ⟨_, rfl⟩ | cases write

theorem msi_takesData : TakesData msiNetwork False := by
  intro a write _
  cases a <;> first | exact ⟨_, rfl⟩ | cases write

theorem mesi_takesData : TakesData mesiNetwork False := by
  intro a write _
  cases a <;> first | exact ⟨_, rfl⟩ | cases write

/-- The OM agent of MOSI alone takes no data. -/
theorem mosi_takesData : TakesData mosiNetwork True := by
  intro a write foreign
  cases a <;> first | exact ⟨_, rfl⟩ | exact absurd rfl (foreign trivial) | cases write

theorem moesif_takesData : TakesData moesifNetwork False := by
  intro a write _
  cases a <;> first | exact ⟨_, rfl⟩ | cases write

/-- A line whose nodes can answer everything on its way to them. -/
structure Answering (strict : Prop) (B : Block NodeId) : Prop where
  acked : B.Acked
  untrapped : B.Untrapped
  unowned : strict → B.Unowned

theorem Answering.initial : Answering strict (Block.initial NodeId) :=
  ⟨Block.Acked.initial, Block.Untrapped.initial, fun _ => Block.Unowned.initial⟩

/-- Where nobody is trapped, an order meets an agent with an answer. -/
theorem Abs.takes_order {k : MessageKind} (abs : Abs L R s σ b B) {o : Order}
    (sent : (B.slot i).probe = .sent o) (free : ∀ g, (B.slot i).phase ≠ .granted g)
    (kind : k = (orderMessage o).1) (untrapped : ¬ (B.slot i).Trapped) :
    ∃ a, F.processNtwkRequest ((σ.cpus i).agents b) k = .ok a := by
  have here : (B.slot i).effective = (B.slot i).right :=
    Slot.effective_of_not_promised (Slot.not_promised (abs.inv.slots i) sent free)
  have meets := abs.inv.order_effective sent
  have order := (abs.within.slot i).sent o sent
  refine L.answersNtwk _ _ ?_
  rw [abs.view i, kind]
  cases o with
  | invalidate =>
      rcases meets with shared | trapped
      · exact .inr (.inl ⟨rfl, order, here ▸ shared⟩)
      · exact absurd trapped untrapped
  | giveBack =>
      rw [here] at meets
      exact .inr (.inr (.inl ⟨rfl, meets.symm⟩))
  | share =>
      rw [here] at meets
      exact .inr (.inr (.inr ⟨rfl, order.1, .inl meets⟩))
  | own keep =>
      rw [here] at meets
      exact .inr (.inr (.inr ⟨rfl, L.profile.owners_reads order, meets.imp_right fun own => ⟨order, own⟩⟩))

/-- The node's agent has an answer to the message its node takes in. -/
theorem Abs.takes {m : Message} (abs : Abs L R s σ m.block B) (bound : i < s.numProcs)
    (arrived : (σ.cpus i).ntwkIn = some m) (answering : Answering strict B)
    (data : TakesData L strict) :
    ∃ a, F.processNtwkRequest ((σ.cpus i).agents m.block) m.kind = .ok a := by
  obtain ⟨l, head⟩ := abs.head bound arrived
  have view := abs.view i
  have ok := abs.inv.slots i
  have within := abs.within.slot i
  rcases down_cons head with ⟨g, granted, kind, -⟩ | ⟨free, o, sent, ordered, -⟩
  · have kind : m.kind = grantKind g := kind
    have wanted : (B.slot i).want ≠ .nothing := fun rest => by
      cases (ok.rest.mp rest).symm.trans granted
    have promised := within.promised g (.inr granted)
    have answerable : (B.slot i).want = .read → g ≠ .ack →
        ∃ a, F.processNtwkRequest ((σ.cpus i).agents m.block) m.kind = .ok a := by
      intro read other
      refine L.answersNtwk _ _ (.inl ⟨g, kind, promised, .inl ?_⟩)
      rw [view]
      exact ⟨read, ok.reads read, other⟩
    cases g with
    | cleanExclusive => exact answerable (ok.clean (.inr granted)) nofun
    | ack =>
        have write := ok.acked granted
        have copy := answering.acked i granted
        refine L.answersNtwk _ _ (.inl ⟨.ack, kind, promised, .inr ?_⟩)
        rw [view]
        exact ⟨write, nofun, by simpa using copy⟩
    | data =>
        cases want : (B.slot i).want with
        | nothing => exact absurd want wanted
        | read => exact answerable want nofun
        | write =>
            rw [kind]
            refine data _ (by rw [view]; exact want) fun strict => ?_
            rw [view]
            exact (answering.unowned strict).slots i want (.inr granted)
  · exact abs.takes_order sent free (congrArg Prod.fst ordered)
      (answering.untrapped.not_trapped abs.inv i)

/-- As `Abs.takes`, on a line without evictions. -/
theorem Abs.takes_closed {m : Message} (abs : Abs L R s σ m.block B) (bound : i < s.numProcs)
    (arrived : (σ.cpus i).ntwkIn = some m) (closed : B.Closed L.profile) :
    ∃ a, F.processNtwkRequest ((σ.cpus i).agents m.block) m.kind = .ok a := by
  obtain ⟨l, head⟩ := abs.head bound arrived
  have ok := abs.inv.slots i
  rcases down_cons head with ⟨g, granted, kind, -⟩ | ⟨free, o, sent, ordered, -⟩
  · have fits := (closed.slots i).grants g (.inr granted)
    refine L.answersNtwk _ _ (.inl ⟨g, kind, (abs.within.slot i).promised g (.inr granted), ?_⟩)
    rw [abs.view i]
    cases want : (B.slot i).want with
    | nothing => cases (ok.rest.mp want).symm.trans granted
    | read =>
        have none := ok.reads want
        exact .inl ⟨rfl, none, fun ack => fits.mp ack none⟩
    | write =>
        refine .inr ⟨rfl, ?_, fits⟩
        rintro rfl
        cases want.symm.trans (ok.clean (.inr granted))
  · exact abs.takes_order sent free (congrArg Prod.fst ordered) (closed.slots i).trapped

/-! ## Steps -/

/-- What a step must not do for the nodes to keep their answers. -/
theorem Answering.after (answering : Answering strict B) (inv : B.Inv) {e : Event NodeId}
    (enabled : B.Enabled e)
    (copy : ∀ h i, e = .promote h i → i ∈ B.members ∨ (B.slot i).right ≠ .none)
    (own : ∀ o i c, e = .reclaim o i c true → i = o)
    (known : strict → ∀ i, e.asker = some i → (B.slot i).want = .write →
      (B.slot i).right = .owned → i ∈ B.members) : Answering strict (B.after e) where
  acked := answering.acked.after inv enabled copy
  untrapped := answering.untrapped.after inv enabled own
  unowned strict := (answering.unowned strict).after inv enabled (known strict)

/-- Events of nodes, and memory's answers, leave every answer in place. -/
theorem Answering.slots (answering : Answering strict B) (inv : B.Inv)
    {ok : Block NodeId → Event NodeId → Prop} (steps : B.Steps ok B')
    (slots : ∀ X e, ok X e → e.slot ≠ none) : Answering strict B' := by
  have kept := steps.keep (I := fun X => X.Inv ∧ Answering strict X) ⟨inv, answering⟩ ?_
  · exact kept.2
  · rintro X e ⟨inv, answering⟩ meets enabled
    have slot := slots X e meets
    refine ⟨inv.after enabled, answering.after inv enabled ?_ ?_ ?_⟩
    · rintro h i rfl
      exact absurd rfl slot
    · rintro o i c rfl
      exact absurd rfl slot
    · intro _ i asker
      cases e <;> first | exact absurd rfl slot | cases asker

/-- The directory takes the message up next. -/
def System.TakesUp (σ : System F π) (r : Message) : Prop :=
  σ.dir.requestInProgress = false ∧ σ.dir.requestQueue.head? = some r

theorem System.TakesUp.queue {r : Message} (taken : σ.TakesUp r) :
    ∃ rest, σ.dir.requestInProgress = false ∧ σ.dir.requestQueue = r :: rest := by
  obtain ⟨free, head⟩ := taken
  cases queue : σ.dir.requestQueue with
  | nil => simp [queue] at head
  | cons r' rest =>
      rw [queue] at head
      exact ⟨rest, free, by rw [Option.some.inj head]⟩

/-- The message does not make the directory answer or order what its node has no
    answer to. -/
structure Careful (L : Laws F) (strict : Prop) (σ : System F π) (r : Message) : Prop where
  trap : (σ.dir.directory r.block).state = .F → r.kind = .getx →
    r.src = (σ.dir.directory r.block).oFId
  wild : Wild (σ.dir.directory r.block) r → (L.view ((σ.cpus r.src).agents r.block)).right ≠ .none
  owner : strict → r.kind = .getm → (L.view ((σ.cpus r.src).agents r.block)).want = .write →
    (L.view ((σ.cpus r.src).agents r.block)).right = .owned →
      (σ.dir.directory r.block).presence r.src = true

/-- Where the directory is careful, its tick leaves every answer in place. -/
theorem Answering.dirTick (answering : Answering strict B) (abs : Abs L R s σ b B)
    (advance : Advance L R s σ .dirTick b B B')
    (upgrades : strict → L.profile.clean = false)
    (careful : ∀ r, σ.TakesUp r → Careful L strict σ r) : Answering strict B' := by
  have kept := advance.steps.keep (I := fun X => X.Inv ∧ L.profile.Within X ∧ Answering strict X)
    ⟨abs.inv, abs.within, answering⟩ ?_
  · exact kept.2.2
  · rintro X e ⟨inv, within, answering⟩ chosen enabled
    refine ⟨inv.after enabled, within.after enabled chosen.event, ?_⟩
    rcases chosen with ⟨i, g, rfl⟩ | ⟨r, rest, Y, free, queue, rfl, ⟨view, entry, -⟩, legal⟩
    · exact answering.after inv enabled nofun nofun (fun _ => nofun)
    · obtain ⟨-, -, promotes, reclaims, taken, -⟩ := legal
      have careful := careful r ⟨free, by rw [queue]; rfl⟩
      refine answering.after inv enabled ?_ ?_ ?_
      · rintro h i rfl
        obtain ⟨rfl, rfl, -⟩ := taken i rfl
        refine (promotes h _ rfl).imp_right fun wild => ?_
        have copy := careful.wild wild
        rwa [view] at copy
      · rintro o i c rfl
        obtain ⟨rfl, rfl, q, kind, asks⟩ := taken i rfl
        obtain ⟨-, mode, -, all⟩ := enabled
        obtain ⟨clean, upgrade⟩ := all rfl
        have same : q = .upgrade := by
          have phase : Phase.asked q = .asked .upgrade := asks.symm.trans upgrade
          cases phase
          rfl
        have state : (σ.dir.directory r.block).state = .F := by
          have stands := entry.stands
          rwa [mode, clean] at stands
        rw [careful.trap state (kind.trans (by rw [same]; rfl))]
        exact entry.owner o (by rw [mode]; rfl)
      · intro strict i asker write owned
        obtain ⟨rfl, rfl, q, kind, asks⟩ := taken i asker
        have getm : r.kind = .getm := by
          have want := (inv.slots r.src).asked q asks
          cases q with
          | read => cases want.symm.trans write
          | write => exact kind
          | upgrade =>
              have clean := (within.slot r.src).asked .upgrade asks
              cases (upgrades strict).symm.trans clean
        refine (entry.members.presence _).mp (careful.owner strict getm ?_ ?_) <;> rw [view]
        · exact write
        · exact owned

/-- Every action where the directory is careful leaves every answer in place. -/
theorem Answering.step {lines lines' : BlockId → Block NodeId} {a : Action π}
    (shows : Shows L R s σ lines) (answering : ∀ b, Answering strict (lines b))
    (advances : ∀ b, Advance L R s σ a b (lines b) (lines' b))
    (upgrades : strict → L.profile.clean = false)
    (careful : a = .dirTick → ∀ r, σ.TakesUp r → Careful L strict σ r) (b : BlockId) :
    Answering strict (lines' b) := by
  cases a with
  | dirTick => exact (answering b).dirTick (shows.abs b) (advances b) upgrades (careful rfl)
  | tick i =>
      refine (answering b).slots (shows.abs b).inv (advances b).steps ?_
      rintro X e (⟨rfl, -⟩ | ⟨-, -, m, a, -, -, -, ⟨⟨q, rfl⟩, -⟩ | ⟨rfl, -⟩⟩ | takes)
      · nofun
      · nofun
      · nofun
      · cases e <;> first | exact takes.elim | nofun
  | external i event =>
      refine (answering b).slots (shows.abs b).inv (advances b).steps ?_
      rintro X e ⟨p, -, rfl, -⟩
      nofun
  | tock i | deliver i | dirTock | dirDeliver src =>
      exact (answering b).slots (shows.abs b).inv (advances b).steps fun _ _ chosen => chosen.elim

/-! ## Runs -/

/-- No agent throws on what its node takes in from the network next. -/
def System.NtwkAnswered (s : Settings) (σ : System F π) : Prop :=
  ∀ i < s.numProcs, ∀ n st st',
    ((σ.cpus i).portStep ((σ.cpus i).called s i)).tickProc s i st = .ok (n, st') →
      ∃ x, n.tickNtwk s i st' = .ok x

/-- The directory does not throw on what it takes up next. -/
def System.DirAnswered (s : Settings) (σ : System F π) : Prop :=
  ∀ clock st, ∃ x, System.tickDir F s σ.dir clock st = .ok x

/-- The directory has an answer to everything a line accounts for. -/
theorem Shows.dirAnswered {lines : BlockId → Block NodeId} (shows : Shows L R s σ lines)
    (small : s.numProcs ≤ kMaxSharers) : σ.DirAnswered s := by
  intro clock st
  have processed : ∃ x, System.processQueue F s { σ.dir with currentClock := clock } st = .ok x := by
    unfold System.processQueue
    split
    · exact ⟨_, rfl⟩
    · next free =>
        split
        · exact ⟨_, rfl⟩
        · next r rest queue =>
            simp only
            split
            · exact ⟨_, rfl⟩
            · next unwritten =>
                have meets := (shows.abs r.block).meets shows.net small (by simpa using free) queue
                have other : r.kind ≠ .dataWb := by
                  intro notice
                  unfold handleWriteback at unwritten
                  rw [if_neg (by simp [notice])] at unwritten
                  split at unwritten <;> cases unwritten
                obtain ⟨o, answer⟩ := L.answers meets other
                simp only [answer]
                exact ⟨_, rfl⟩
  obtain ⟨⟨d, st'⟩, eq⟩ := processed
  exact ⟨_, by rw [System.tickDir, eq]⟩

/-- Agents have answers wherever lines that events of nodes lead to give them. -/
theorem Shows.ntwkAnswered {lines : BlockId → Block NodeId} (shows : Shows L R s σ lines)
    (laws : PortLaws π R) (tidy : ∀ i, Tidy R s σ (.tick i))
    (takes : ∀ i < s.numProcs, ∀ n m B',
      Abs L R s (System.setCpu σ i n) m.block B' → n.ntwkIn = some m →
      (lines m.block).Steps (fun X e => Chosen L R s σ m.block X e (.tick i) ∧ e.slot ≠ none) B' →
      ∃ a, F.processNtwkRequest (n.agents m.block) m.kind = .ok a) : σ.NtwkAnswered s := by
  intro i bound n st st' answered
  unfold CpuNode.tickNtwk
  split
  · exact ⟨_, rfl⟩
  · next m arrived =>
      obtain ⟨B', abs, steps⟩ := (shows.abs m.block).procHalf laws bound (tidy i).1 answered
      obtain ⟨a, answer⟩ := takes i bound n m B' abs arrived steps
      simp only [answer]
      exact ⟨_, rfl⟩

theorem Shows.answering {lines : BlockId → Block NodeId} (shows : Shows L R s σ lines)
    (laws : PortLaws π R) (tidy : ∀ i, Tidy R s σ (.tick i)) (data : TakesData L strict)
    (answering : ∀ b, Answering strict (lines b)) : σ.NtwkAnswered s := by
  refine shows.ntwkAnswered laws tidy fun i bound n m B' abs arrived steps => ?_
  have answering' := (answering m.block).slots (shows.abs m.block).inv steps fun _ _ => And.right
  have takes := abs.takes (m := m) bound (by rwa [setCpu_cpus_self]) answering' data
  rwa [setCpu_cpus_self] at takes

/-- Without evictions every message finds an answer. -/
theorem Shows.closed {lines : BlockId → Block NodeId} (shows : Shows L R s σ lines)
    (laws : PortLaws π R) (tidy : ∀ i, Tidy R s σ (.tick i))
    (keeps : ∀ i b X e, Chosen L R s σ b X e (.tick i) → e.Keeps)
    (closed : ∀ b, (lines b).Closed L.profile) : σ.NtwkAnswered s := by
  refine shows.ntwkAnswered laws tidy fun i bound n m B' abs arrived steps => ?_
  have line := shows.abs m.block
  have closed' := steps.closed (fun X e meets => meets.1.event)
    (fun X e meets => keeps i m.block X e meets.1) line.inv line.within (closed m.block)
  have takes := abs.takes_closed (m := m) bound (by rwa [setCpu_cpus_self]) closed'
  rwa [setCpu_cpus_self] at takes

/-- In every run in which the directory is careful, every message finds an answer. -/
theorem answered_run (laws : PortLaws π fun _ _ => False) (small : s.numProcs ≤ kMaxSharers)
    (data : TakesData L strict) (upgrades : strict → L.profile.clean = false)
    {ok : System F π → Action π → Prop}
    (careful : ∀ σ lines a, Shows L (fun _ _ => False) s σ lines → ok σ a → a = .dirTick →
      ∀ r, σ.TakesUp r → Careful L strict σ r) {cpu : NodeId → π.State}
    (run : (System.machine F π s).Run ok (System.initial F π s cpu) σ) :
    σ.NtwkAnswered s ∧ σ.DirAnswered s := by
  obtain ⟨lines, shows, answering⟩ := Shows.run (L := L)
    (I := fun _ lines => ∀ b, Answering strict (lines b)) laws small (fun _ _ _ => id)
    (fun σ _ a _ _ _ => tidy_of_none σ a) (fun _ => .initial)
    (fun σ lines a σ' lines' shows answering guarded _ advances _ =>
      Answering.step shows answering advances upgrades (careful σ lines a shows guarded)) run
  exact ⟨shows.answering laws (fun i => tidy_of_none σ (.tick i)) data answering,
    shows.dirAnswered small⟩

end Coherence
