import MulticoreSim.Coherence.Stations

/-! # The five protocols in coherence mode

Nothing throws, and a node that may write is the only one with a copy.
-/

namespace Coherence

open DirectoryProtocol

section

variable {F : ProtocolFsm} {s : Settings} {b : BlockId} {i j : NodeId}
  {traces : NodeId → List Instruction} {σ : System F ficiPort} {L : Laws F}

/-- Who may write holds the only copy. -/
theorem exclusive_run (L : Laws F) (small : s.numProcs ≤ kMaxSharers)
    (reached : (System.machine F ficiPort s).Reachable (coherenceMode F s traces) σ)
    (exclusive : (L.view ((σ.cpus i).agents b)).right = .exclusive) (ne : j ≠ i) :
    (L.view ((σ.cpus j).agents b)).right = .none := by
  obtain ⟨lines, shows, settled⟩ := settled_run L small reached
  have abs := shows.abs b
  rw [abs.view] at exclusive ⊢
  exact (settled.closed b).exclusive_alone abs.inv exclusive ne

/-- At most one node holds more than a shared copy. -/
theorem one_owner_run (L : Laws F) (small : s.numProcs ≤ kMaxSharers)
    (reached : (System.machine F ficiPort s).Reachable (coherenceMode F s traces) σ)
    (owner : ¬ (L.view ((σ.cpus i).agents b)).right.Weak)
    (owner' : ¬ (L.view ((σ.cpus j).agents b)).right.Weak) : i = j := by
  obtain ⟨lines, shows, settled⟩ := settled_run L small reached
  have abs := shows.abs b
  rw [abs.view] at owner owner'
  exact (settled.closed b).one_owner abs.inv owner owner'

end

/-- Two CPUs that load and then store to one block. -/
def rivals (i : NodeId) : List Instruction :=
  if i < 2 then [⟨'r', 64⟩, ⟨'w', 64⟩] else []

/-- One cycle of `n` CPUs and the directory, each handed at most one message. -/
def ficiCycle (n : Nat) : List (Action ficiPort) :=
  ((List.range n).flatMap fun i => [.tick i, .deliver i]) ++ [.dirTick] ++
    (List.range n).map .dirDeliver ++ (List.range n).map .tock ++ [.dirTock]

def rivalSettings : Settings := { numProcs := 2, memLatency := 1 }

/-- The rivals after some cycles. -/
def rivalry (F : ProtocolFsm) (cycles : Nat) : System F ficiPort :=
  (System.machine F ficiPort rivalSettings).attempt (coherenceMode F rivalSettings rivals)
    (List.replicate cycles (ficiCycle 2)).flatten

/-! ## MI -/

/-- The target of the recall that (M, GETM) begins is a CPU. -/
theorem mi_recalls {s : Settings} {σ : System mi ficiPort} {R : FiciCpu → BlockId → Prop}
    {lines : BlockId → Block NodeId} (shows : Shows (π := ficiPort) miNetwork R s σ lines)
    (small : s.numProcs ≤ kMaxSharers) {r : Message} (taken : σ.TakesUp r)
    (state : (σ.dir.directory r.block).state = .M) (getm : r.kind = .getm) :
    ∃ o t, miHandle s (σ.dir.directory r.block) r = .ok o ∧
      o.sends = [{ dest := t, tag := r.block, kind := .recallGotoI }] ∧ t < s.numProcs := by
  obtain ⟨rest, free, queue⟩ := taken.queue
  have meets := (shows.abs r.block).meets shows.net small free queue
  obtain ⟨h, mode⟩ := meets.named state
  have members := meets.entry.members
  have rights := meets.inv.rights
  simp only [Block.ModeOk, mode] at rights
  rw [rights.1] at members
  refine ⟨Outcome.recallHolder s (σ.dir.directory r.block) r .recallGotoI .MM, h, ?_, ?_,
    members.bound h (Finset.mem_singleton_self h)⟩
  · simp [miHandle, state, getm]
  · simp [Outcome.recallHolder, members.lastPresent]

/-- MI is safe in coherence mode. -/
theorem mi_coherence_mode (s : Settings) (small : s.numProcs ≤ 16)
    (traces : NodeId → List Instruction) (σ : System mi ficiPort)
    (reached : (System.machine mi ficiPort s).Reachable (coherenceMode mi s traces) σ) :
    (∀ a, σ.thrown s a = none) ∧
      (∀ r, σ.TakesUp r → (σ.dir.directory r.block).state = .M → r.kind = .getm →
        ∃ o t, miHandle s (σ.dir.directory r.block) r = .ok o ∧
          o.sends = [{ dest := t, tag := r.block, kind := .recallGotoI }] ∧
          t < s.numProcs ∧ t ≠ noNode) ∧
      ∀ b i j, (σ.cpus i).agents b = MiState.M → (σ.cpus j).agents b = MiState.M → i = j := by
  refine ⟨coherenceMode_silent miNetwork small reached, fun r taken state getm => ?_,
    fun b i j modified modified' => ?_⟩
  · obtain ⟨lines, shows, -⟩ := settled_run miNetwork small reached
    obtain ⟨o, t, handled, sends, bound⟩ := mi_recalls shows small taken state getm
    exact ⟨o, t, handled, sends, bound,
      Nat.ne_of_lt (bound.trans (lt_of_le_of_lt small (by decide)))⟩
  · have strong : ¬ (miNetwork.view MiState.M).right.Weak := by decide
    exact one_owner_run miNetwork small reached (by rwa [modified]) (by rwa [modified'])

theorem mi_coherence_mode_rivals :
    (∀ a, (rivalry mi 40).thrown rivalSettings a = none) ∧
      (∀ r, (rivalry mi 40).TakesUp r → ((rivalry mi 40).dir.directory r.block).state = .M →
        r.kind = .getm →
        ∃ o t, miHandle rivalSettings ((rivalry mi 40).dir.directory r.block) r = .ok o ∧
          o.sends = [{ dest := t, tag := r.block, kind := .recallGotoI }] ∧
          t < rivalSettings.numProcs ∧ t ≠ noNode) ∧
      ∀ b i j, ((rivalry mi 40).cpus i).agents b = MiState.M →
        ((rivalry mi 40).cpus j).agents b = MiState.M → i = j :=
  mi_coherence_mode rivalSettings (by decide) rivals _ (Machine.reachable_attempt _ _)

/-! ## MSI -/

/-- MSI is safe in coherence mode. -/
theorem msi_coherence_mode (s : Settings) (small : s.numProcs ≤ 16)
    (traces : NodeId → List Instruction) (σ : System msi ficiPort)
    (reached : (System.machine msi ficiPort s).Reachable (coherenceMode msi s traces) σ) :
    (∀ a, σ.thrown s a = none) ∧
      ∀ b i, (σ.cpus i).agents b = MsiState.M → ∀ j ≠ i,
        (σ.cpus j).agents b ∉ [MsiState.S, .M, .SM] := by
  refine ⟨coherenceMode_silent msiNetwork small reached, fun b i modified j ne => ?_⟩
  have none := exclusive_run msiNetwork small reached (b := b) (i := i)
    (by rw [modified]; rfl) ne
  generalize (σ.cpus j).agents b = a at none
  cases a <;> first | exact absurd none (by decide) | decide

theorem msi_coherence_mode_rivals :
    (∀ a, (rivalry msi 40).thrown rivalSettings a = none) ∧
      ∀ b i, ((rivalry msi 40).cpus i).agents b = MsiState.M → ∀ j ≠ i,
        ((rivalry msi 40).cpus j).agents b ∉ [MsiState.S, .M, .SM] :=
  msi_coherence_mode rivalSettings (by decide) rivals _ (Machine.reachable_attempt _ _)

/-! ## MESI -/

/-- MESI is safe in coherence mode. -/
theorem mesi_coherence_mode (s : Settings) (small : s.numProcs ≤ 16)
    (traces : NodeId → List Instruction) (σ : System mesi ficiPort)
    (reached : (System.machine mesi ficiPort s).Reachable (coherenceMode mesi s traces) σ) :
    (∀ a, σ.thrown s a = none) ∧
      ∀ b i, (σ.cpus i).agents b ∈ [MesiState.M, .E, .EM] → ∀ j ≠ i,
        (σ.cpus j).agents b ∉ [MesiState.S, .E, .M, .SM, .EM] := by
  refine ⟨coherenceMode_silent mesiNetwork small reached, fun b i exclusive j ne => ?_⟩
  have right : (mesiNetwork.view ((σ.cpus i).agents b)).right = .exclusive := by
    generalize (σ.cpus i).agents b = a at exclusive
    cases a <;> first | rfl | exact absurd exclusive (by decide)
  have none := exclusive_run mesiNetwork small reached right ne
  generalize (σ.cpus j).agents b = a at none
  cases a <;> first | exact absurd none (by decide) | decide

theorem mesi_coherence_mode_rivals :
    (∀ a, (rivalry mesi 40).thrown rivalSettings a = none) ∧
      ∀ b i, ((rivalry mesi 40).cpus i).agents b ∈ [MesiState.M, .E, .EM] → ∀ j ≠ i,
        ((rivalry mesi 40).cpus j).agents b ∉ [MesiState.S, .E, .M, .SM, .EM] :=
  mesi_coherence_mode rivalSettings (by decide) rivals _ (Machine.reachable_attempt _ _)

/-! ## MOSI -/

/-- MOSI is safe in coherence mode. -/
theorem mosi_coherence_mode (s : Settings) (small : s.numProcs ≤ 16)
    (traces : NodeId → List Instruction) (σ : System mosi ficiPort)
    (reached : (System.machine mosi ficiPort s).Reachable (coherenceMode mosi s traces) σ) :
    (∀ a, σ.thrown s a = none) ∧
      (∀ b i j, (σ.cpus i).agents b ∈ [MosiState.M, .O, .OM] →
        (σ.cpus j).agents b ∈ [MosiState.M, .O, .OM] → i = j) ∧
      ∀ b i, (σ.cpus i).agents b = MosiState.M → ∀ j ≠ i,
        (σ.cpus j).agents b ∉ [MosiState.S, .SM, .O, .OM, .M] := by
  have strong : ∀ a : MosiState, a ∈ [MosiState.M, .O, .OM] → ¬ (mosiNetwork.view a).right.Weak := by
    intro a mem
    cases a <;> first | exact absurd mem (by decide) | decide
  refine ⟨coherenceMode_silent mosiNetwork small reached, fun b i j owner owner' => ?_,
    fun b i modified j ne => ?_⟩
  · exact one_owner_run mosiNetwork small reached (strong _ owner) (strong _ owner')
  · have none := exclusive_run mosiNetwork small reached (b := b) (i := i)
      (by rw [modified]; rfl) ne
    generalize (σ.cpus j).agents b = a at none
    cases a <;> first | exact absurd none (by decide) | decide

theorem mosi_coherence_mode_rivals :
    (∀ a, (rivalry mosi 40).thrown rivalSettings a = none) ∧
      (∀ b i j, ((rivalry mosi 40).cpus i).agents b ∈ [MosiState.M, .O, .OM] →
        ((rivalry mosi 40).cpus j).agents b ∈ [MosiState.M, .O, .OM] → i = j) ∧
      ∀ b i, ((rivalry mosi 40).cpus i).agents b = MosiState.M → ∀ j ≠ i,
        ((rivalry mosi 40).cpus j).agents b ∉ [MosiState.S, .SM, .O, .OM, .M] :=
  mosi_coherence_mode rivalSettings (by decide) rivals _ (Machine.reachable_attempt _ _)

/-! ## MOESIF -/

/-- MOESIF is safe in coherence mode. -/
theorem moesif_coherence_mode (s : Settings) (small : s.numProcs ≤ 16)
    (traces : NodeId → List Instruction) (σ : System moesif ficiPort)
    (reached : (System.machine moesif ficiPort s).Reachable (coherenceMode moesif s traces) σ) :
    (∀ a, σ.thrown s a = none) ∧
      (∀ b i j, (σ.cpus i).agents b ∈ [MoesifState.M, .E, .EM, .O, .OM, .F, .FM] →
        (σ.cpus j).agents b ∈ [MoesifState.M, .E, .EM, .O, .OM, .F, .FM] → i = j) ∧
      ∀ b i, (σ.cpus i).agents b ∈ [MoesifState.M, .E, .EM] → ∀ j ≠ i,
        (σ.cpus j).agents b ∉ [MoesifState.S, .SM, .O, .OM, .F, .FM, .M, .E, .EM] := by
  have strong : ∀ a : MoesifState, a ∈ [MoesifState.M, .E, .EM, .O, .OM, .F, .FM] →
      ¬ (moesifNetwork.view a).right.Weak := by
    intro a mem
    cases a <;> first | exact absurd mem (by decide) | decide
  refine ⟨coherenceMode_silent moesifNetwork small reached, fun b i j owner owner' => ?_,
    fun b i exclusive j ne => ?_⟩
  · exact one_owner_run moesifNetwork small reached (strong _ owner) (strong _ owner')
  · have right : (moesifNetwork.view ((σ.cpus i).agents b)).right = .exclusive := by
      generalize (σ.cpus i).agents b = a at exclusive
      cases a <;> first | rfl | exact absurd exclusive (by decide)
    have none := exclusive_run moesifNetwork small reached right ne
    generalize (σ.cpus j).agents b = a at none
    cases a <;> first | exact absurd none (by decide) | decide

theorem moesif_coherence_mode_rivals :
    (∀ a, (rivalry moesif 40).thrown rivalSettings a = none) ∧
      (∀ b i j, ((rivalry moesif 40).cpus i).agents b ∈ [MoesifState.M, .E, .EM, .O, .OM, .F, .FM] →
        ((rivalry moesif 40).cpus j).agents b ∈ [MoesifState.M, .E, .EM, .O, .OM, .F, .FM] → i = j) ∧
      ∀ b i, ((rivalry moesif 40).cpus i).agents b ∈ [MoesifState.M, .E, .EM] → ∀ j ≠ i,
        ((rivalry moesif 40).cpus j).agents b ∉
          [MoesifState.S, .SM, .O, .OM, .F, .FM, .M, .E, .EM] :=
  moesif_coherence_mode rivalSettings (by decide) rivals _ (Machine.reachable_attempt _ _)

end Coherence
