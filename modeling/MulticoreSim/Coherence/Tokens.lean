import MulticoreSim.Coherence.CoherenceMode
import MulticoreSim.Coherence.Progress

/-! # Requests are conserved

In coherence mode a CPU's outstanding request is in exactly one place of the
network at any time, from its issue to the CPU's taking the answer in.
-/

namespace Coherence

open DirectoryProtocol

/-- The legs of a request's way. -/
inductive Stage where
  | issued | arrived | asked | waiting | fetching | granted | answered | returned
  deriving DecidableEq

/-- A place where a CPU's request can be. -/
inductive Token where
  /-- Its LOAD or STORE, in `cpu_in_next` or in `cpu_in`. -/
  | cpuInNext | cpuIn
  /-- Its GETS, GETM or GETX, at a position among what the directory has not taken up. -/
  | request (position : Nat)
  /-- Its id, as the requester of the block's transient round. -/
  | round (block : BlockId)
  /-- Its id, as the requester of the pending memory response. -/
  | memory
  /-- Its DATA, DATA_E or ACK, at a position among what is on the way to it. -/
  | grant (position : Nat)
  /-- Its DATA, in `cache_in_next` or in `cache_in`. -/
  | cacheInNext | cacheIn
  deriving DecidableEq

def IsRequest (m : Message) : Prop := m.kind = .gets ∨ m.kind = .getm ∨ m.kind = .getx

namespace Token

def stage : Token → Stage
  | cpuInNext => .issued
  | cpuIn => .arrived
  | request _ => .asked
  | round _ => .waiting
  | memory => .fetching
  | grant _ => .granted
  | cacheInNext => .answered
  | cacheIn => .returned

/-- The request of CPU `i` is in this place. -/
def Held {F : ProtocolFsm} (s : Settings) (σ : System F ficiPort) (i : NodeId) : Token → Prop
  | cpuInNext => ∃ m, (σ.cpus i).cpuInNext = some m ∧ (m.kind = .load ∨ m.kind = .store)
  | cpuIn => ∃ m, (σ.cpus i).cpuIn = some m ∧ (m.kind = .load ∨ m.kind = .store)
  | request k => ∃ m, (σ.carried s i)[k]? = some m ∧ IsRequest m
  | round b => ¬ (σ.dir.directory b).state.Stable ∧ (σ.dir.directory b).reqNodeInTransient = i
  | memory => σ.dir.requestInProgress = true ∧ σ.dir.targetNode = i
  | grant k => ∃ m, (σ.arriving s i)[k]? = some m ∧ m.kind.IsGrant
  | cacheInNext => (FiciCpu.cacheInNext (σ.cpus i).cpu).isSome = true
  | cacheIn => (FiciCpu.cacheIn (σ.cpus i).cpu).isSome = true

end Token

/-! ## Stages -/

/-- The stage of a request that an agent waits with. -/
def phaseStage : Phase → Option Stage
  | .rest => none
  | .asked _ => some .asked
  | .waiting => some .waiting
  | .fetching _ => some .fetching
  | .granted _ => some .granted

def Station.stage (phase : BlockId → Phase) : Station → Option Stage
  | .idle => none
  | .issued _ => some .issued
  | .arrived _ => some .arrived
  | .asked b => phaseStage (phase b)
  | .answered _ => some .answered
  | .returned _ => some .returned

/-- At most one element of a list satisfies `p`, so it has one position. -/
theorem position_unique {α : Type} {p : α → Bool} {l : List α} (once : l.countP p ≤ 1) {j k : Nat}
    {x y : α} (at_j : l[j]? = some x) (at_k : l[k]? = some y) (px : p x = true) (py : p y = true) :
    j = k := by
  induction l generalizing j k with
  | nil => simp at at_j
  | cons z l ih =>
      have rest {n : Nat} {w : α} (here : l[n]? = some w) (pw : p w = true) : 0 < l.countP p :=
        List.countP_pos_iff.mpr ⟨w, List.mem_of_getElem? here, pw⟩
      rw [List.countP_cons] at once
      cases j with
      | zero =>
          cases k with
          | zero => rfl
          | succ k =>
              have := rest (by simpa using at_k) py
              simp only [List.getElem?_cons_zero, Option.some.injEq] at at_j
              simp only [at_j, px, if_true] at once
              omega
      | succ j =>
          cases k with
          | zero =>
              have := rest (by simpa using at_j) px
              simp only [List.getElem?_cons_zero, Option.some.injEq] at at_k
              simp only [at_k, py, if_true] at once
              omega
          | succ k =>
              have less : l.countP p ≤ 1 := by omega
              have same : j = k := ih less (by simpa using at_j) (by simpa using at_k)
              rw [same]

section

variable {F : ProtocolFsm} {L : Laws F} {s : Settings} {σ : System F ficiPort} {b : BlockId}
  {lines : BlockId → Block NodeId} {i : NodeId} {t : Station}

variable {R : FiciCpu → BlockId → Prop}

/-- A request a node has sent is its slot's. -/
theorem Shows.request (shows : Shows (π := ficiPort) L R s σ lines)
    (bound : i < s.numProcs) {m : Message} (sent : m ∈ σ.carried s i) (request : IsRequest m) :
    ∃ r, ((lines m.block).slot i).phase = .asked r ∧ m.kind = requestKind r := by
  obtain ⟨r, kind⟩ : ∃ r, m.kind = requestKind r := by
    rcases request with kind | kind | kind
    · exact ⟨.read, kind⟩
    · exact ⟨.write, kind⟩
    · exact ⟨.upgrade, kind⟩
  refine ⟨r, asked_of_up ?_, kind⟩
  rw [← (shows.abs m.block).upward i bound]
  exact about_pos.mpr ⟨m, sent, rfl, kind⟩

/-- A grant on its way to a node is its slot's. -/
theorem Shows.grant (shows : Shows (π := ficiPort) L R s σ lines)
    (bound : i < s.numProcs) {m : Message} (coming : m ∈ σ.arriving s i) (grant : m.kind.IsGrant) :
    ∃ g, ((lines m.block).slot i).phase = .granted g ∧ m.kind = grantKind g := by
  obtain ⟨g, kind⟩ : ∃ g, m.kind = grantKind g := by
    rcases grant with kind | kind | kind
    · exact ⟨.data, kind⟩
    · exact ⟨.cleanExclusive, kind⟩
    · exact ⟨.ack, kind⟩
  have here : (m.kind, m.dirty) ∈ down ((lines m.block).slot i) := by
    rw [← (shows.abs m.block).downward i bound]
    exact List.mem_map.mpr ⟨m, List.mem_filter.mpr ⟨coming, by simp⟩, rfl⟩
  rcases List.mem_append.mp here with granted | ordered
  · cases phase : ((lines m.block).slot i).phase with
    | granted g' =>
        rw [phase] at granted
        have eq := congrArg Prod.fst (List.mem_singleton.mp granted)
        exact ⟨g', rfl, eq⟩
    | _ =>
        rw [phase] at granted
        cases granted
  · cases probe : ((lines m.block).slot i).probe with
    | sent o =>
        rw [probe] at ordered
        have eq := congrArg Prod.fst (List.mem_singleton.mp ordered)
        exact absurd (kind.symm.trans eq) (grantKind_ne_order g o)
    | _ =>
        rw [probe] at ordered
        cases ordered

/-- An agent that waits is where its CPU's request is. -/
theorem Station.At.asked (here : At L.toAgentLaws (σ.cpus i) t)
    (shows : Shows (π := ficiPort) L R s σ lines) :
    ((lines b).slot i).phase ≠ .rest ↔ t = .asked b := by
  have abs := shows.abs b
  have awaits := here.agents b
  rw [abs.view i] at awaits
  rw [Ne, ← (abs.inv.slots i).rest]
  refine awaits.trans ?_
  cases t <;> simp [Station.Awaits, eq_comm]

/-- The requester of a transient round waits for it. -/
theorem Shows.waiting (shows : Shows (π := ficiPort) L R s σ lines)
    (held : (Token.round b).Held s σ i) : ((lines b).slot i).phase = .waiting := by
  obtain ⟨transient, requester⟩ := held
  have abs := shows.abs b
  obtain ⟨j, mode⟩ :=
    Option.ne_none_iff_exists'.mp ((transient_mode abs.entry.stands).mp transient)
  have same := (abs.entry.requester j mode).1.symm.trans requester
  exact (abs.inv.waiting i).mpr (same ▸ mode)

/-- What stage the places show the request to be in. -/
theorem Token.Held.stage (shows : Shows (π := ficiPort) L R s σ lines)
    (here : Station.At L.toAgentLaws (σ.cpus i) t) (bound : i < s.numProcs) {k : Token}
    (held : k.Held s σ i) : t.stage (fun b => ((lines b).slot i).phase) = some k.stage := by
  have asked {b : BlockId} {p : Phase} (phase : ((lines b).slot i).phase = p) (busy : p ≠ .rest) :
      t.stage (fun b => ((lines b).slot i).phase) = phaseStage p := by
    rw [(here.asked shows).mp (phase ▸ busy), Station.stage, phase]
  cases k with
  | cpuInNext =>
      obtain ⟨m, slot, -⟩ := held
      rw [here.cpuInNext] at slot
      cases t <;> first | rfl | cases slot
  | cpuIn =>
      obtain ⟨m, slot, -⟩ := held
      rw [here.cpuIn] at slot
      cases t <;> first | rfl | cases slot
  | request k =>
      obtain ⟨m, position, request⟩ := held
      obtain ⟨r, phase, -⟩ := shows.request bound (List.mem_of_getElem? position) request
      exact asked phase nofun
  | round b => exact asked (shows.waiting held) nofun
  | memory =>
      obtain ⟨busy, target⟩ := held
      have owed : σ.dir.owes σ.dir.tagToSend i = some σ.dir.grant := if_pos ⟨busy, rfl, target⟩
      exact asked (((shows.abs σ.dir.tagToSend).fetching i _).mpr owed) nofun
  | grant k =>
      obtain ⟨m, position, grant⟩ := held
      obtain ⟨g, phase, -⟩ := shows.grant bound (List.mem_of_getElem? position) grant
      exact asked phase nofun
  | cacheInNext =>
      have slot : (FiciCpu.cacheInNext (σ.cpus i).cpu).isSome = true := held
      rw [here.cacheInNext] at slot
      cases t <;> first | rfl | cases slot
  | cacheIn =>
      have slot : (FiciCpu.cacheIn (σ.cpus i).cpu).isSome = true := held
      rw [here.cacheIn] at slot
      cases t <;> first | rfl | cases slot

/-- A request that is out is somewhere. -/
theorem Station.At.held (here : At L.toAgentLaws (σ.cpus i) t)
    (shows : Shows (π := ficiPort) L R s σ lines) (bound : i < s.numProcs) (busy : t ≠ .idle) :
    ∃ k : Token, k.Held s σ i := by
  cases t with
  | idle => exact absurd rfl busy
  | issued m => exact ⟨.cpuInNext, m, here.cpuInNext, here.request m (.inl rfl)⟩
  | arrived m => exact ⟨.cpuIn, m, here.cpuIn, here.request m (.inr rfl)⟩
  | answered m => exact ⟨.cacheInNext, by rw [Token.Held, here.cacheInNext]; rfl⟩
  | returned m => exact ⟨.cacheIn, by rw [Token.Held, here.cacheIn]; rfl⟩
  | asked b =>
      have abs := shows.abs b
      have waits := (here.asked shows (b := b)).mpr rfl
      cases phase : ((lines b).slot i).phase with
      | rest => exact absurd phase waits
      | asked r =>
          obtain ⟨m, sent, -, kind⟩ : ∃ m ∈ σ.carried s i, m.block = b ∧ m.kind = requestKind r := by
            refine about_pos.mp ?_
            rw [abs.upward i bound, up, phase]
            simp only [upRequest, one_self]
            omega
          obtain ⟨k, position⟩ := List.mem_iff_getElem?.mp sent
          refine ⟨.request k, m, position, ?_⟩
          cases r <;> simp [IsRequest, kind, requestKind]
      | waiting =>
          have mode := (abs.inv.waiting i).mp phase
          refine ⟨.round b, (transient_mode abs.entry.stands).mpr ?_, (abs.entry.requester i mode).1⟩
          rw [mode]
          simp
      | fetching g =>
          have owed := (abs.fetching i g).mp phase
          unfold DirectoryController.owes at owed
          split at owed
          · next due => exact ⟨.memory, due.1, due.2.2⟩
          · cases owed
      | granted g =>
          have coming : (grantKind g, false) ∈ orders b (σ.arriving s i) := by
            rw [abs.downward i bound, down, phase]
            exact List.mem_append_left _ (List.mem_singleton_self _)
          obtain ⟨m, mem, eq⟩ := List.mem_map.mp coming
          obtain ⟨k, position⟩ := List.mem_iff_getElem?.mp (List.mem_filter.mp mem).1
          have kind : m.kind = grantKind g := congrArg Prod.fst eq
          refine ⟨.grant k, m, position, ?_⟩
          cases g <;> simp [MessageKind.IsGrant, kind, grantKind]

/-! ## One place -/

theorem countP_orders (b : BlockId) (l : List Message) (k : MessageKind) :
    (orders b l).countP (fun x => x.1 = k) = about b l k := by
  simp only [orders, List.countP_map, List.countP_filter, about]
  refine List.countP_congr fun m _ => ?_
  simp [and_comm]

theorem up_request {slot : Slot} {r : Request} (asked : slot.phase = .asked r) :
    up slot (requestKind r) = 1 := by
  have reply : upReply slot.probe (requestKind r) = 0 := by
    cases slot.probe with
    | answered reply => cases r <;> cases reply <;> rfl
    | idle | sent o => rfl
  have notice : one .dataWb (requestKind r) = 0 := by cases r <;> rfl
  simp [up, asked, upRequest, reply, notice]

theorem down_grant {slot : Slot} {g : Grant} (granted : slot.phase = .granted g) :
    (down slot).countP (fun x => x.1 = grantKind g) = 1 := by
  have none : (downOrder slot.probe).countP (fun x => x.1 = grantKind g) = 0 := by
    cases slot.probe with
    | sent o =>
        have other := grantKind_ne_order g o
        simp [downOrder, Ne.symm other]
    | idle | answered reply => rfl
  simp [down, granted, downGrant, none]

/-- Two places that hold the request are one. -/
theorem Token.Held.unique (shows : Shows (π := ficiPort) L R s σ lines)
    (here : Station.At L.toAgentLaws (σ.cpus i) t) (bound : i < s.numProcs) {k k' : Token}
    (held : k.Held s σ i) (held' : k'.Held s σ i) : k = k' := by
  have same : k.stage = k'.stage :=
    Option.some.inj ((held.stage shows here bound).symm.trans (held'.stage shows here bound))
  have awaited {b : BlockId} {p : Phase} (phase : ((lines b).slot i).phase = p) (busy : p ≠ .rest) :
      t = .asked b := (here.asked shows).mp (phase ▸ busy)
  cases k with
  | request k =>
      cases k' with
      | request k' =>
          obtain ⟨m, position, request⟩ := held
          obtain ⟨m', position', request'⟩ := held'
          obtain ⟨r, phase, kind⟩ := shows.request bound (List.mem_of_getElem? position) request
          obtain ⟨r', phase', kind'⟩ := shows.request bound (List.mem_of_getElem? position') request'
          have block : m'.block = m.block := Station.asked.inj
            ((awaited phase' nofun).symm.trans (awaited phase nofun))
          rw [block] at phase'
          have request : r' = r := Phase.asked.inj (phase'.symm.trans phase)
          have once := ((shows.abs m.block).upward i bound (requestKind r)).trans (up_request phase)
          have position := position_unique once.le position position' (by simp [kind])
            (by simp [kind', request, block])
          rw [position]
      | _ => cases same
  | round b =>
      cases k' with
      | round b' =>
          have block : b = b' := Station.asked.inj
            ((awaited (shows.waiting held) nofun).symm.trans (awaited (shows.waiting held') nofun))
          rw [block]
      | _ => cases same
  | grant k =>
      cases k' with
      | grant k' =>
          obtain ⟨m, position, grant⟩ := held
          obtain ⟨m', position', grant'⟩ := held'
          obtain ⟨g, phase, kind⟩ := shows.grant bound (List.mem_of_getElem? position) grant
          obtain ⟨g', phase', kind'⟩ := shows.grant bound (List.mem_of_getElem? position') grant'
          have block : m'.block = m.block := Station.asked.inj
            ((awaited phase' nofun).symm.trans (awaited phase nofun))
          rw [block] at phase'
          have grant : g' = g := Phase.granted.inj (phase'.symm.trans phase)
          have once := (congrArg (List.countP fun x => decide (x.1 = grantKind g))
            ((shows.abs m.block).downward i bound)).trans (down_grant phase)
          rw [countP_orders] at once
          have position := position_unique once.le position position' (by simp [kind])
            (by simp [kind', grant, block])
          rw [position]
      | _ => cases same
  | cpuInNext | cpuIn | memory | cacheInNext | cacheIn => cases k' <;> first | rfl | cases same

end

/-- Every outstanding request is in exactly one place, a CPU without one has nothing on its
    way, and every transient entry has its round's next message on its way. -/
structure Conserved {F : ProtocolFsm} (s : Settings) (σ : System F ficiPort) : Prop where
  outstanding : ∀ i < s.numProcs, FiciCpu.outstanding (σ.cpus i).cpu = true →
    ∃! k : Token, k.Held s σ i
  free : ∀ i < s.numProcs, FiciCpu.outstanding (σ.cpus i).cpu = false →
    ∀ k : Token, ¬ k.Held s σ i
  rounds : ∀ b, ¬ (σ.dir.directory b).state.Stable → σ.Feeds s b

/-- Requests are conserved in every coherence-mode run of the five protocols. -/
theorem requests_conserved (s : Settings) (small : s.numProcs ≤ kMaxSharers)
    (traces : NodeId → List Instruction) (σ : System s.protocol.fsm ficiPort)
    (reached : (System.machine s.protocol.fsm ficiPort s).Reachable
      (coherenceMode s.protocol.fsm s traces) σ) : Conserved s σ := by
  obtain ⟨lines, shows, settled⟩ := settled_run s.protocol.laws small reached
  refine ⟨fun i bound out => ?_, fun i bound free k held => ?_, fun b => ?_⟩
  · obtain ⟨t, here⟩ := settled.stations i
    obtain ⟨k, held⟩ := here.held shows bound (here.outstanding.mp out)
    exact ⟨k, held, fun k' held' => held'.unique shows here bound held⟩
  · obtain ⟨t, here⟩ := settled.stations i
    have idle : t = .idle := by
      by_contra busy
      cases free.symm.trans (here.outstanding.mpr busy)
    subst idle
    cases held.stage shows here bound
  · exact (shows.abs b).feeds (settled.live b).1

theorem requests_conserved_rivals :
    Conserved { rivalSettings with protocol := .MESI } (rivalry mesi 7) :=
  requests_conserved { rivalSettings with protocol := .MESI } (by decide) rivals _
    (Machine.reachable_attempt _ _)

end Coherence
