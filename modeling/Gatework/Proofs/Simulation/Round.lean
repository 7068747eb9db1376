import Gatework.Proofs.Simulation.Reaction
import Gatework.Simulation.Panel
import Mathlib.Logic.Function.Iterate

/-!
# Rounds of a simulation

What one round does to the wires and the gates, and how a simulation ends.

There are four groups.

* `Arena.withSignals` gives every wire a signal and keeps the rest of it, and
  `Arena.dark` turns all wires off.  Two arenas that are equal in the dark are
  equal as soon as their signals are (`eq_of_dark_eq`), which is the case when
  their levels are (`levels_eq_iff`).
* Putting signals on wires: a wire keeps its signal unless it is driven, and a
  driven wire has the signal that was put on it last.
* One round.  It keeps the gates up to their states and the wires up to their
  signals (`map_bare_act`, `dark_act`), and wires that no gate drives keep their
  signals (`isPowered_act_of_not_driven`).
* Many rounds.  `settle_cases` says how a simulation ends: with the first round
  that leaves the wires as they were, or with the last round that it may have.
-/

namespace Gatework

/-! ## Arenas in the dark -/

namespace Arena

/-- The arena whose wires have the signals of a function. -/
def withSignals (signals : WireId → Bool) (a : Arena) : Arena where
  latest := a.latest.map fun wire => { wire with powered := signals wire.id }
  nodup := by
    rw [List.map_map]
    exact a.nodup

/-- The arena with all wires unpowered. -/
def dark (a : Arena) : Arena := a.withSignals fun _ => false

@[simp] theorem ids_withSignals (signals : WireId → Bool) (a : Arena) :
    (a.withSignals signals).ids = a.ids := by
  simp [withSignals, ids]

@[simp] theorem withSignals_withSignals (signals signals' : WireId → Bool) (a : Arena) :
    (a.withSignals signals').withSignals signals = a.withSignals signals := by
  apply eq_of_latest_eq
  simp [withSignals]

@[simp] theorem size_withSignals (signals : WireId → Bool) (a : Arena) :
    (a.withSignals signals).size = a.size := by
  simp [withSignals, size]

theorem isPowered_withSignals (signals : WireId → Bool) (a : Arena) (id : WireId) :
    (a.withSignals signals).isPowered id = ((a.find? id).isSome && signals id) := by
  have hfind : (a.withSignals signals).find? id =
      (a.find? id).map fun wire => { wire with powered := signals wire.id } := by
    simp only [find?, withSignals, List.find?_map]
    rfl
  rw [isPowered, hfind]
  cases h : a.find? id with
  | none => rfl
  | some wire => simp [(find?_eq_some_iff.1 h).2]

theorem isSome_find? (a : Arena) (id : WireId) : (a.find? id).isSome = decide (id ∈ a.ids) := by
  rw [Bool.eq_iff_iff, decide_eq_true_iff, ← not_iff_not, ← find?_eq_none]
  simp

/-- The signals of an arena are its own. -/
theorem withSignals_isPowered (a : Arena) : a.withSignals a.isPowered = a := by
  apply eq_of_latest_eq
  refine (List.map_congr_left fun wire hwire => ?_).trans (List.map_id a.latest)
  have hfind : a.find? wire.id = some wire := find?_eq_some_iff.2 ⟨hwire, rfl⟩
  simp [isPowered, hfind]

theorem ids_eq_of_dark_eq {a b : Arena} (h : a.dark = b.dark) : a.ids = b.ids := by
  rw [← ids_withSignals (fun _ => false) a, ← ids_withSignals (fun _ => false) b]
  exact congrArg ids h

/-- Arenas that differ at most in their signals are equal if the signals are. -/
theorem eq_of_dark_eq {a b : Arena} (h : a.dark = b.dark)
    (hsignals : ∀ id, a.isPowered id = b.isPowered id) : a = b := by
  calc a = a.dark.withSignals a.isPowered := by
        rw [dark, withSignals_withSignals, withSignals_isPowered]
    _ = b.dark.withSignals b.isPowered := by rw [h, funext hsignals]
    _ = b := by rw [dark, withSignals_withSignals, withSignals_isPowered]

/-- The signals can be read off the levels. -/
theorem isPowered_eq_of_levels_eq {a b : Arena} (h : a.levels = b.levels) (id : WireId) :
    a.isPowered id = b.isPowered id := by
  have hread : ∀ a : Arena, a.isPowered id =
      ((a.levels.reverse.find? fun level => level.1 == id).map Prod.snd).any fun b => b := by
    intro a
    rw [levels, wires, List.map_reverse, List.reverse_reverse, List.find?_map, isPowered,
      find?]
    simp only [Function.comp_def]
    cases a.latest.find? fun wire => wire.id == id <;> rfl
  rw [hread a, hread b, h]

/-- Among arenas that differ at most in their signals, the levels tell the
arenas apart. -/
theorem levels_eq_iff {a b : Arena} (h : a.dark = b.dark) : a.levels = b.levels ↔ a = b := by
  constructor
  · intro hlevels
    exact eq_of_dark_eq h (isPowered_eq_of_levels_eq hlevels)
  · rintro rfl
    rfl

/-! ## Putting signals on wires -/

theorem drive_cons (drive : WireId × Bool) (drives : List (WireId × Bool)) (a : Arena) :
    a.drive (drive :: drives) = (a.setPowered drive.1 drive.2).drive drives := rfl

theorem dark_setPowered (id : WireId) (powered : Bool) (a : Arena) :
    (a.setPowered id powered).dark = a.dark := by
  apply eq_of_latest_eq
  simp only [dark, withSignals, setPowered, latest_adjust, List.map_map]
  refine List.map_congr_left fun wire _ => ?_
  simp only [Function.comp_def]
  split <;> rfl

@[simp] theorem dark_drive (drives : List (WireId × Bool)) (a : Arena) :
    (a.drive drives).dark = a.dark := by
  induction drives generalizing a with
  | nil => rfl
  | cons drive drives ih => rw [drive_cons, ih, dark_setPowered]

/-- A wire that is not driven keeps its signal. -/
theorem isPowered_drive_of_not_mem {drives : List (WireId × Bool)} {id : WireId}
    (h : id ∉ drives.map Prod.fst) (a : Arena) :
    (a.drive drives).isPowered id = a.isPowered id := by
  induction drives generalizing a with
  | nil => rfl
  | cons drive drives ih =>
    rw [List.map_cons, List.mem_cons, not_or] at h
    rw [drive_cons, ih h.2, isPowered_setPowered, if_neg h.1]

/-- The same signals on the same wires have the same effect on a wire that they
reach, or that had the same signal before. -/
theorem isPowered_drive_congr {a b : Arena} (hids : a.ids = b.ids)
    {drives : List (WireId × Bool)} {id : WireId}
    (h : id ∈ drives.map Prod.fst ∨ a.isPowered id = b.isPowered id) :
    (a.drive drives).isPowered id = (b.drive drives).isPowered id := by
  induction drives generalizing a b with
  | nil =>
    rcases h with h | h
    · exact absurd h (by simp)
    · exact h
  | cons drive drives ih =>
    rw [drive_cons, drive_cons]
    refine ih ?_ ?_
    · simp [setPowered, hids]
    · rw [isPowered_setPowered, isPowered_setPowered, isSome_find?, isSome_find?, hids]
      by_cases hid : id = drive.1
      · rw [if_pos hid, if_pos hid]
        exact Or.inr rfl
      · rw [if_neg hid, if_neg hid]
        rcases h with h | h
        · rw [List.map_cons, List.mem_cons] at h
          exact Or.inl (h.resolve_left hid)
        · exact Or.inr h

/-- A wire that is driven once has the signal that is put on it. -/
theorem isPowered_drive_of_mem {drives : List (WireId × Bool)}
    (hnodup : (drives.map Prod.fst).Nodup) {drive : WireId × Bool} (h : drive ∈ drives)
    {a : Arena} (hid : drive.1 ∈ a.ids) : (a.drive drives).isPowered drive.1 = drive.2 := by
  induction drives generalizing a with
  | nil => exact absurd h List.not_mem_nil
  | cons first drives ih =>
    rw [List.map_cons, List.nodup_cons] at hnodup
    rw [drive_cons]
    rcases List.mem_cons.1 h with rfl | h
    · rw [isPowered_drive_of_not_mem hnodup.1, isPowered_setPowered, if_pos rfl,
        isSome_find?, decide_eq_true hid, Bool.true_and]
    · refine ih hnodup.2 h ?_
      simpa [setPowered] using hid

end Arena

/-! ## One round -/

namespace Circuit

theorem act_cons (gate : Gate) (later : List Gate) (wires : Arena) :
    act (gate :: later) wires =
      ⟨{ gate with state := (gate.react (act later wires).wires.isPowered).state } ::
          (act later wires).gates,
        (act later wires).wires.drive (gate.react (act later wires).wires.isPowered).drives⟩ :=
  rfl

/-- The gates stay what they are, up to their states. -/
theorem map_bare_act (gates : List Gate) (wires : Arena) :
    (act gates wires).gates.map Gate.bare = gates.map Gate.bare := by
  induction gates with
  | nil => rfl
  | cons gate later ih => rw [act_cons, List.map_cons, ih, Gate.bare_withState, List.map_cons]

/-- The wires stay what they are, up to their signals. -/
@[simp] theorem dark_act (gates : List Gate) (wires : Arena) :
    (act gates wires).wires.dark = wires.dark := by
  induction gates with
  | nil => rfl
  | cons gate later ih => rw [act_cons, Arena.dark_drive, ih]

/-- A wire that no gate drives keeps its signal. -/
theorem isPowered_act_of_not_driven {gates : List Gate} {id : WireId}
    (h : ∀ gate ∈ gates, id ∉ gate.driven) (wires : Arena) :
    (act gates wires).wires.isPowered id = wires.isPowered id := by
  induction gates with
  | nil => rfl
  | cons gate later ih =>
    have hgate : id ∉ gate.driven := h gate List.mem_cons_self
    rw [act_cons, Arena.isPowered_drive_of_not_mem (by rwa [Gate.map_fst_react]),
      ih fun g hg => h g (List.mem_cons_of_mem _ hg)]

theorem round_eq (c : Circuit) : c.round = act c.gates c.wires := rfl

/-! ## Many rounds -/

theorem dark_iterate_round (c : Circuit) (k : Nat) : (round^[k] c).wires.dark = c.wires.dark := by
  induction k with
  | zero => rfl
  | succ k ih => rw [Function.iterate_succ_apply', round_eq, dark_act, ih]

theorem map_bare_iterate_round (c : Circuit) (k : Nat) :
    (round^[k] c).gates.map Gate.bare = c.gates.map Gate.bare := by
  induction k with
  | zero => rfl
  | succ k ih => rw [Function.iterate_succ_apply', round_eq, map_bare_act, ih]

/-- A gate after some rounds is one of the gates before them, up to its state. -/
theorem exists_bare_eq_of_mem_iterate {c : Circuit} {k : Nat} {gate : Gate}
    (h : gate ∈ (round^[k] c).gates) : ∃ g ∈ c.gates, g.bare = gate.bare := by
  have hbare : gate.bare ∈ (round^[k] c).gates.map Gate.bare := List.mem_map_of_mem h
  rw [map_bare_iterate_round] at hbare
  exact List.mem_map.1 hbare

/-- Whether a round leaves the wires of a circuit as they are. -/
def AtRest (c : Circuit) : Prop := c.round.wires = c.wires

theorem settle_succ (passed more : Nat) (c : Circuit) :
    (AtRest c → c.settle passed (more + 1) = (⟨passed + 1, true⟩, c.round)) ∧
      (¬AtRest c → c.settle passed (more + 1) = c.round.settle (passed + 1) more) := by
  have hdark : c.round.wires.dark = c.wires.dark := dark_act c.gates c.wires
  constructor
  · intro hrest
    rw [settle, if_pos ((Arena.levels_eq_iff hdark).2 hrest)]
  · intro hrest
    rw [settle, if_neg (mt (Arena.levels_eq_iff hdark).1 hrest)]

/-- How a simulation ends.  Either some round was the first one to leave the
wires as they were, and the simulation has stopped with it, or no round was, and
the simulation has used all its rounds. -/
theorem settle_cases (passed more : Nat) (c : Circuit) :
    (∃ k < more, c.settle passed more = (⟨passed + k + 1, true⟩, (round^[k] c).round) ∧
        AtRest (round^[k] c) ∧ ∀ j < k, ¬AtRest (round^[j] c)) ∨
      (c.settle passed more = (⟨passed + more, false⟩, round^[more] c) ∧
        ∀ j < more, ¬AtRest (round^[j] c)) := by
  induction more generalizing passed c with
  | zero => exact Or.inr ⟨rfl, fun j hj => absurd hj (Nat.not_lt_zero j)⟩
  | succ more ih =>
    obtain ⟨hstop, hgo⟩ := settle_succ passed more c
    by_cases hrest : AtRest c
    · exact Or.inl ⟨0, Nat.zero_lt_succ more, hstop hrest, hrest,
        fun j hj => absurd hj (Nat.not_lt_zero j)⟩
    · have hbefore : ∀ k, (∀ j < k, ¬AtRest (round^[j] c.round)) →
          ∀ j < k + 1, ¬AtRest (round^[j] c) := by
        intro k hk j hj
        cases j with
        | zero => exact hrest
        | succ j => exact hk j (by omega)
      rcases ih (passed + 1) c.round with ⟨k, hk, heq, hk', hfirst⟩ | ⟨heq, hnever⟩
      · refine Or.inl ⟨k + 1, by omega, ?_, hk', hbefore k hfirst⟩
        rw [hgo hrest, heq, show passed + 1 + k + 1 = passed + (k + 1) + 1 by omega]
        rfl
      · refine Or.inr ⟨?_, hbefore more hnever⟩
        rw [hgo hrest, heq, show passed + 1 + more = passed + (more + 1) by omega]
        rfl

theorem roundLimit_pos (c : Circuit) : 0 < c.roundLimit := by
  unfold roundLimit
  omega

/-- A circuit that is at rest after some rounds, fewer than it may have, settles with the next
round or before it. -/
theorem simulate_of_atRest {c : Circuit} {k : Nat} (hk : k < c.roundLimit)
    (hrest : AtRest (round^[k] c)) :
    c.simulate.1.converged = true ∧ c.simulate.1.rounds ≤ k + 1 := by
  unfold simulate
  rcases settle_cases 0 c.roundLimit c with ⟨first, _, heq, _, hfirst⟩ | ⟨_, hnever⟩
  · have hle : first ≤ k := by
      by_contra hlt
      exact hfirst k (by omega) hrest
    rw [heq]
    exact ⟨rfl, by show 0 + first + 1 ≤ k + 1; omega⟩
  · exact absurd hrest (hnever k hk)

/-- A circuit whose simulation has settled is at rest after its last round but
one. -/
theorem exists_atRest_of_converged {c : Circuit} (h : c.simulate.1.converged = true) :
    ∃ k, c.simulate.2 = (round^[k] c).round ∧ AtRest (round^[k] c) := by
  unfold simulate at h ⊢
  rcases settle_cases 0 c.roundLimit c with ⟨k, _, heq, hrest, _⟩ | ⟨heq, _⟩
  · exact ⟨k, by rw [heq], hrest⟩
  · rw [heq] at h
    exact absurd h Bool.false_ne_true

end Circuit

end Gatework
