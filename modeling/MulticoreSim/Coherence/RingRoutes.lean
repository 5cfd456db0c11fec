import MulticoreSim.Coherence.RingOrder

/-! # Routes are shortest

Every node on the way of a message picks its direction anew, in 64-bit arithmetic. All
pick the same, and the message takes as few hops as there are.
-/

namespace Coherence.Ring

variable {n k s d : Nat}

/-- The hops to `d` the shorter way round. -/
def away (n k d : Nat) : Nat := min ((d + n - k) % n) ((k + n - d) % n)

/-! ## The arithmetic of the source -/

/-- `(dst + N - id_) % N`, of `uint64_t`s. -/
def distance64 (n k dst : Nat) : Nat := ((dst + n) % 2 ^ 64 + 2 ^ 64 - k) % 2 ^ 64 % n

/-- `((distance > N / 2 ? id_ - 1 : id_ + 1) + N) % N`, of `uint64_t`s. -/
def hop64 (n k dst : Nat) : Nat :=
  ((if n / 2 < distance64 n k dst then (k + 2 ^ 64 - 1) % 2 ^ 64 else (k + 1) % 2 ^ 64) + n) % 2 ^ 64 % n

/-- Left of node 0 the subtraction wraps, and the addition of `N` wraps it back. -/
theorem hop64_eq (fits : n < 2 ^ 63) (here : k < n) (there : d < n) : hop64 n k d = hop n k d := by
  have far : distance64 n k d = distance n k d := by
    unfold distance64 distance
    congr 1
    omega
  unfold hop64 hop port
  rw [far]
  split
  · rw [target_left here]
    by_cases zero : k = 0
    · subst zero
      have wrapped : ((0 + 2 ^ 64 - 1) % 2 ^ 64 + n) % 2 ^ 64 = n - 1 := by omega
      rw [wrapped, if_pos rfl, Nat.mod_eq_of_lt (by omega)]
    · have stays : ((k + 2 ^ 64 - 1) % 2 ^ 64 + n) % 2 ^ 64 = k - 1 + n := by omega
      rw [stays, if_neg zero, Nat.add_mod_right, Nat.mod_eq_of_lt (by omega)]
  · have next : (k + 1) % 2 ^ 64 = k + 1 := Nat.mod_eq_of_lt (by omega)
    have stays : (k + 1 + n) % 2 ^ 64 = k + 1 + n := Nat.mod_eq_of_lt (by omega)
    rw [next, stays, Nat.add_mod_right]
    rfl

/-! ## One hop -/

theorem away_eq (here : k < n) (there : d < n) (apart : k ≠ d) : away n k d = togo n k d := by
  have forth := distance_eq here there
  have back := distance_eq there here
  unfold away togo
  change min (distance n k d) (distance n d k) = _
  rw [forth, back]
  split
  · rw [if_neg (by omega)]
    split
    · omega
    · split
      · omega
      · omega
  · rw [if_pos (by omega)]
    split
    · omega
    · split
      · omega
      · omega

theorem away_self (d : Nat) : away n d d = 0 := by
  unfold away
  have back : d + n - d = n := by omega
  rw [back, Nat.mod_self, Nat.min_self]

/-- A node next to another one that a message comes from sends it on in the same direction. -/
theorem port_hop (here : k < n) (there : d < n) (apart : k ≠ d) (on : hop n k d ≠ d) :
    port n (hop n k d) d = port n k d := by
  have keeps : ∀ k', k' < n → k' = hop n k d → k' ≠ d → port n k' d = port n k d := by
    intro k' here' eq on
    have far := distance_eq here there
    have far' := distance_eq here' there
    unfold hop port at eq
    unfold port
    generalize distance n k d = x at *
    generalize distance n k' d = y at *
    by_cases left : n / 2 < x
    · rw [if_pos left, target_left here] at eq
      rw [if_pos left, if_pos]
      split_ifs at far far' eq <;> omega
    · rw [if_neg left, target_right here] at eq
      rw [if_neg left, if_neg]
      split_ifs at far far' eq <;> omega
  exact keeps _ (hop_lt here d) rfl on

/-- A hop from a node off the destination brings a message one closer. -/
theorem away_hop (two : 2 ≤ n) (here : k < n) (there : d < n) (apart : k ≠ d) :
    away n (hop n k d) d + 1 = away n k d := by
  obtain ⟨last, on⟩ := hop_togo two here there
  rw [away_eq here there apart]
  by_cases one : togo n k d = 1
  · rw [last one, away_self, one]
  · obtain ⟨other, closer⟩ := on one
    rw [away_eq (hop_lt here d) there other]
    exact closer

/-! ## The whole way -/

/-- The nodes on the way are what the hops from its start lead to. -/
theorem routeFrom_eq (n d hops k : Nat) :
    (routeFrom n d hops k).reverse = (List.range hops).map fun i => (hop n · d)^[i] k := by
  induction hops generalizing k with
  | zero => rfl
  | succ hops ih =>
      rw [routeFrom, List.reverse_append, ih, List.range_succ_eq_map, List.map_cons, List.map_map]
      rfl

/-- All nodes on the way to another node are off it, and send the same way round. -/
theorem port_routeFrom (two : 2 ≤ n) (there : d < n) {hops : Nat} (here : k < n) (apart : k ≠ d)
    (far : togo n k d = hops) :
    ∀ j ∈ routeFrom n d hops k, j < n ∧ j ≠ d ∧ port n j d = port n k d := by
  induction hops generalizing k with
  | zero =>
      intro j mem
      cases mem
  | succ hops ih =>
      intro j mem
      rw [routeFrom, List.mem_append, List.mem_singleton] at mem
      cases mem with
      | inr start =>
          subst start
          exact ⟨here, apart, rfl⟩
      | inl mem =>
          by_cases last : hops = 0
          · subst last
            cases mem
          · obtain ⟨on, closer⟩ := (hop_togo two here there).2 (by omega)
            obtain ⟨inside, off, same⟩ := ih (hop_lt here d) on (by omega) j mem
            exact ⟨inside, off, same.trans (port_hop here there apart on)⟩

/-- The last hop leads to the destination. -/
theorem hop_iterate (two : 2 ≤ n) (there : d < n) {hops : Nat} (here : k < n) (apart : k ≠ d)
    (far : togo n k d = hops) : (hop n · d)^[hops] k = d := by
  induction hops generalizing k with
  | zero =>
      have pos := togo_pos here there
      omega
  | succ hops ih =>
      obtain ⟨last, on⟩ := hop_togo two here there
      rw [Function.iterate_succ_apply]
      by_cases one : togo n k d = 1
      · have none : hops = 0 := by omega
        rw [none, last one]
        rfl
      · obtain ⟨other, closer⟩ := on one
        exact ih (hop_lt here d) other (by omega)

/-- A message to another node takes a shortest way: the nodes it comes through are what
    the hops of the source lead to from its own one on, all of them send it by one port, each
    brings it one hop closer, and what it leaves by a port comes in by the other port of the
    next node. In every run it is in no other link. -/
theorem shortest_path (two : 2 ≤ n) (here : s < n) (there : d < n) (apart : s ≠ d) :
    (route n s d).length = min ((d + n - s) % n) ((s + n - d) % n) ∧
      (route n s d).reverse ++ [d] =
        (List.range ((route n s d).length + 1)).map (fun i => (hop n · d)^[i] s) ∧
      (∀ k ∈ route n s d, (n < 2 ^ 63 → hop64 n k d = hop n k d) ∧ port n k d = port n s d ∧
        away n (hop n k d) d + 1 = away n k d ∧
        target n (hop n k d) (port n k d).other = k) ∧
      ∀ σ, (machine n).Run (fun _ out => Sends n out) {} σ → ∀ k < n, ∀ p id,
        link n σ k p = some id → (σ.heap id).src = s → (σ.heap id).dst = d →
          k ∈ route n s d ∧ p = port n s d := by
  have ways := port_routeFrom two there here apart rfl
  have length : (route n s d).length = togo n s d := by
    have reversed := congrArg List.length (routeFrom_eq n d (togo n s d) s)
    rwa [List.length_reverse, List.length_map, List.length_range] at reversed
  refine ⟨?_, ?_, ?_, ?_⟩
  · rw [length]
    exact (away_eq here there apart).symm
  · rw [length, List.range_succ, List.map_append, List.map_singleton,
      hop_iterate two there here apart rfl]
    exact congrArg (· ++ [d]) (routeFrom_eq n d (togo n s d) s)
  · intro k mem
    obtain ⟨inside, off, same⟩ := ways k mem
    exact ⟨fun fits => hop64_eq fits inside there, same, away_hop two inside there off,
      target_other inside (port n k d)⟩
  · intro σ run k inside p id stands source dest
    obtain ⟨mem, way⟩ := (Sound.run two run).routed.links k inside p id stands
    rw [source, dest] at mem
    rw [dest] at way
    exact ⟨mem, way.symm.trans (ways k mem).2.2⟩

/-- Half the way round an even ring goes right, half of an odd one goes the shorter way. -/
theorem shortest_path_half :
    route 6 1 4 = [3, 2, 1] ∧ (route 6 1 4).length = min ((4 + 6 - 1) % 6) ((1 + 6 - 4) % 6) ∧
      route 5 1 4 = [0, 1] ∧ (route 5 1 4).length = min ((4 + 5 - 1) % 5) ((1 + 5 - 4) % 5) :=
  ⟨by decide, (shortest_path (by decide) (by decide) (by decide) (by decide)).1,
    by decide, (shortest_path (by decide) (by decide) (by decide) (by decide)).1⟩

/-- `cycles` cycles of four nodes, in the first of which node 0 sends itself a message. -/
def selfSent (cycles : Nat) : Ring :=
  (machine 4).attempt {}
    ((fun k => if k = 0 then [⟨0, 0, 0, .gets, 1, false⟩] else []) :: List.replicate cycles fun _ => [])

/-- It is no hop away, but goes out to the right and comes back by the left. -/
theorem self_message_travels :
    min ((0 + 4 - 0) % 4) ((0 + 4 - 0) % 4) = 0 ∧ route 4 0 0 = [1, 0] ∧
      (machine 4).Run (fun _ out => Sends 4 out) {} (selfSent 1) ∧
      (machine 4).Run (fun _ out => Sends 4 out) {} (selfSent 3) ∧
      ((selfSent 1).heap 0).src = 0 ∧ ((selfSent 1).heap 0).dst = 0 ∧
      link 4 (selfSent 1) 0 .right = some 0 ∧ link 4 (selfSent 3) 1 .left = some 0 :=
  ⟨rfl, by decide, Machine.run_attempt _ (by decide +kernel), Machine.run_attempt _ (by decide +kernel),
    by decide +kernel, by decide +kernel, by decide +kernel, by decide +kernel⟩

end Coherence.Ring
