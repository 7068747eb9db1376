import Gatework.Simulation
import Std.Data.HashMap

/-!
# Simulation on a panel

A long simulation of a large netlist reads and writes signals millions of times.
A panel keeps them in an array, and every gate knows the places of its wires
there, so that no wire has to be looked up in a round.

There are four groups.

* The places of an arena: `Arena.place?` is the place of a wire, and `Arena.lit`
  the arena with the signals of an array.
* `Panel.read` and `Panel.write` read and write a signal at a place, which is
  reading and writing the wire (`read_place?`, `lit_write`).
* `Panel.act` lets the gates act once, and `Panel.settle` repeats rounds.  Both do
  what the circuit does (`act_lit`, `settle_lit`).
* `Netlist.simulate` simulates a netlist on a panel, which is the simulation of
  its circuit (`Netlist.simulate_eq`).
-/

namespace Gatework

/-! ## Places -/

namespace Arena

/-- The wires with their places. -/
def placed (a : Arena) : List (WireId × Nat) :=
  a.latest.mapIdx fun place wire => (wire.id, place)

/-- The places of the wires, by their identifiers. -/
def places (a : Arena) : Std.HashMap WireId Nat := .ofList a.placed

/-- The place of a wire. -/
def place? (a : Arena) (id : WireId) : Option Nat := a.places[id]?

theorem map_fst_placed (a : Arena) : a.placed.map Prod.fst = a.ids := by
  refine List.ext_getElem? fun place => ?_
  simp only [placed, ids, List.getElem?_map, List.getElem?_mapIdx, Option.map_map]
  rfl

theorem place?_eq_some_iff {a : Arena} {id : WireId} {place : Nat} :
    a.place? id = some place ↔ ∃ wire, a.latest[place]? = some wire ∧ wire.id = id := by
  have distinct : a.placed.Pairwise fun p q => (p.1 == q.1) = false := by
    have h := a.nodup
    rw [show a.latest.map Wire.id = a.placed.map Prod.fst from a.map_fst_placed.symm,
      List.Nodup, List.pairwise_map] at h
    exact h.imp fun hne => by simpa using hne
  have found {wire : Wire} {place : Nat} (h : a.latest[place]? = some wire) :
      a.place? wire.id = some place := by
    have same : (wire.id == wire.id) = true := by simp
    refine Std.HashMap.getElem?_ofList_of_mem same distinct ?_
    rw [placed, List.mem_mapIdx]
    obtain ⟨hlt, rfl⟩ := List.getElem?_eq_some_iff.1 h
    exact ⟨place, hlt, rfl⟩
  constructor
  · intro h
    by_cases hmem : id ∈ a.ids
    · obtain ⟨wire, hwire, rfl⟩ := List.mem_map.1 hmem
      obtain ⟨other, hother⟩ := List.getElem?_of_mem hwire
      rw [found hother, Option.some.injEq] at h
      exact ⟨wire, h ▸ hother, rfl⟩
    · rw [place?, places, Std.HashMap.getElem?_ofList_of_contains_eq_false] at h
      · simp at h
      · rw [map_fst_placed]
        simpa using hmem
  · rintro ⟨wire, hwire, rfl⟩
    exact found hwire

theorem find?_eq_bind_place? (a : Arena) (id : WireId) :
    a.find? id = (a.place? id).bind fun place => a.latest[place]? := by
  cases h : a.place? id with
  | none =>
    rw [Option.bind_none, find?_eq_none]
    intro hmem
    obtain ⟨wire, hwire, rfl⟩ := List.mem_map.1 hmem
    obtain ⟨place, hplace⟩ := List.getElem?_of_mem hwire
    rw [place?_eq_some_iff.2 ⟨wire, hplace, rfl⟩] at h
    simp at h
  | some place =>
    obtain ⟨wire, hwire, hid⟩ := place?_eq_some_iff.1 h
    rw [Option.bind_some, hwire, find?_eq_some_iff]
    exact ⟨List.mem_of_getElem? hwire, hid⟩

/-- The signals of the wires at their places. -/
def signals (a : Arena) : Array Bool := (a.latest.map Wire.powered).toArray

/-- The arena with other signals. -/
def lit (signals : Array Bool) (a : Arena) : Arena where
  latest := a.latest.mapIdx fun place wire => { wire with powered := signals.getD place false }
  nodup := by
    have ids : (a.latest.mapIdx fun place wire =>
        { wire with powered := signals.getD place false }).map Wire.id = a.ids := by
      refine List.ext_getElem? fun place => ?_
      simp only [ids, List.getElem?_map, List.getElem?_mapIdx, Option.map_map]
      rfl
    rw [ids]
    exact a.nodup

theorem getElem?_latest_lit (signals : Array Bool) (a : Arena) (place : Nat) :
    (a.lit signals).latest[place]? =
      a.latest[place]?.map fun wire => { wire with powered := signals.getD place false } := by
  simp [lit]

@[simp] theorem size_lit (signals : Array Bool) (a : Arena) : (a.lit signals).size = a.size := by
  simp [lit, size]

@[simp] theorem place?_lit (signals : Array Bool) (a : Arena) :
    (a.lit signals).place? = a.place? := by
  funext id
  refine Option.ext fun place => ?_
  simp only [place?_eq_some_iff, getElem?_latest_lit, Option.map_eq_some_iff]
  constructor
  · rintro ⟨_, ⟨wire, hwire, rfl⟩, hid⟩
    exact ⟨wire, hwire, hid⟩
  · rintro ⟨wire, hwire, hid⟩
    exact ⟨_, ⟨wire, hwire, rfl⟩, hid⟩

@[simp] theorem size_signals (a : Arena) : a.signals.size = a.size := by
  simp [signals, size]

/-- An arena has its own signals. -/
theorem lit_signals (a : Arena) : a.lit a.signals = a := by
  refine eq_of_latest_eq (List.ext_getElem? fun place => ?_)
  rw [getElem?_latest_lit]
  cases h : a.latest[place]? with
  | none => rfl
  | some wire => simp [signals, h, Array.getD_eq_getD_getElem?]

/-- Arenas that differ in their signals only are told apart by their levels. -/
theorem levels_lit_eq_iff {a : Arena} {s t : Array Bool} (hs : s.size = a.size)
    (ht : t.size = a.size) : (a.lit s).levels = (a.lit t).levels ↔ s = t := by
  constructor
  · intro h
    refine Array.ext (hs.trans ht.symm) fun place hps hpt => ?_
    have hlt : place < a.latest.length := Nat.lt_of_lt_of_eq hps hs
    simp only [levels, wires, List.map_reverse, List.reverse_inj] at h
    have hat := congrArg (fun l => l[place]?) h
    simp only [List.getElem?_map, getElem?_latest_lit, List.getElem?_eq_getElem hlt,
      Option.map_some, Option.some.injEq, Prod.mk.injEq, true_and] at hat
    simpa [Array.getD_eq_getD_getElem?, hps, hpt] using hat
  · rintro rfl
    rfl

end Arena

/-! ## Panels -/

/-- A gate with the places of its wires.  A pin without a wire has none. -/
structure Probe where
  gate : Gate
  behaviour : Behaviour
  pins : Pins (Option Nat)

namespace Probe

/-- The probe of a gate. -/
def ofGate (place? : WireId → Option Nat) (gate : Gate) : Probe :=
  ⟨gate, gate.behaviour, gate.pins.map place?⟩

/-- The probe with its gate in a state, which is mostly the state that it has. -/
def withState (state : String) (probe : Probe) : Probe :=
  if state = probe.gate.state then probe else { probe with gate := { probe.gate with state } }

theorem withState_eq (state : String) (probe : Probe) :
    probe.withState state = { probe with gate := { probe.gate with state } } := by
  rw [withState]
  split
  · rename_i h
    rw [h]
  · rfl

end Probe

/-- Gates that act on signals at places. -/
structure Panel where
  probes : List Probe
  signals : Array Bool

namespace Panel

/-- The signal at a place. -/
def read (signals : Array Bool) : Option Nat → Bool
  | none => false
  | some place => signals.getD place false

/-- The signals with one at a place. -/
def write (signals : Array Bool) (drive : Option Nat × Bool) : Array Bool :=
  match drive.1 with
  | none => signals
  | some place => signals.setIfInBounds place drive.2

@[simp] theorem size_write (signals : Array Bool) (drive : Option Nat × Bool) :
    (write signals drive).size = signals.size := by
  rw [write]
  split <;> simp

/-- Reading at the place of a wire is reading the wire. -/
theorem read_place? (signals : Array Bool) (a : Arena) :
    read signals ∘ a.place? = (a.lit signals).isPowered := by
  funext id
  rw [Arena.isPowered, Arena.find?_eq_bind_place?, Arena.place?_lit, Function.comp]
  cases h : a.place? id with
  | none => rfl
  | some place =>
    obtain ⟨wire, hwire, -⟩ := Arena.place?_eq_some_iff.1 h
    simp [Arena.getElem?_latest_lit, hwire, read]

/-- Writing at the place of a wire is writing the wire. -/
theorem lit_write {signals : Array Bool} {a : Arena} (hs : signals.size = a.size)
    (id : WireId) (powered : Bool) :
    a.lit (write signals (a.place? id, powered)) = (a.lit signals).setPowered id powered := by
  refine Arena.eq_of_latest_eq (List.ext_getElem? fun place => ?_)
  rw [Arena.setPowered, Arena.latest_adjust, List.getElem?_map, Arena.getElem?_latest_lit,
    Arena.getElem?_latest_lit]
  cases hwire : a.latest[place]? with
  | none => rfl
  | some wire =>
    have hlt : place < signals.size :=
      Nat.lt_of_lt_of_eq (List.getElem?_eq_some_iff.1 hwire).1 hs.symm
    simp only [Option.map_some, Option.some.injEq]
    by_cases hid : wire.id = id
    · rw [if_pos hid, Arena.place?_eq_some_iff.2 ⟨wire, hwire, hid⟩]
      simp [write, Array.getD_eq_getD_getElem?, hlt]
    · rw [if_neg hid]
      have hne : a.place? id ≠ some place := fun h => by
        obtain ⟨other, hother, ho⟩ := Arena.place?_eq_some_iff.1 h
        rw [hwire, Option.some.injEq] at hother
        exact hid (hother ▸ ho)
      cases h : a.place? id with
      | none => rfl
      | some other =>
        have hother : other ≠ place := fun e => hne (e ▸ h)
        simp [write, Array.getD_eq_getD_getElem?, hother]

/-! ## Rounds -/

/-- The signals and states after every gate has acted once, the last one
first. -/
def act : List Probe → Array Bool → Panel
  | [], signals => ⟨[], signals⟩
  | probe :: later, signals =>
    let ⟨probes, signals⟩ := act later signals
    let reaction := probe.behaviour.react (read signals) probe.gate.state probe.pins
    ⟨probe.withState reaction.state :: probes, reaction.drives.foldl write signals⟩

/-- Repeats rounds after some that have passed, at most a further number of
times. -/
def settle (passed : Nat) : Nat → Panel → Circuit.Verdict × Panel
  | 0, panel => (⟨passed, false⟩, panel)
  | more + 1, panel =>
    let next := act panel.probes panel.signals
    if next.signals = panel.signals then
      (⟨passed + 1, true⟩, next)
    else
      settle (passed + 1) more next

/-- The panel of a circuit.  The places are found once for all gates. -/
def ofCircuit (c : Circuit) : Panel :=
  let places := c.wires.places
  ⟨c.gates.map (Probe.ofGate fun id => places[id]?), c.wires.signals⟩

/-- A panel that has the signals and states of a circuit, on the wires of an
arena. -/
structure Shows (a : Arena) (c : Circuit) (panel : Panel) : Prop where
  probes : panel.probes = c.gates.map (Probe.ofGate a.place?)
  wires : c.wires = a.lit panel.signals
  size : panel.signals.size = a.size

theorem lit_foldl_write {a : Arena} (drives : List (WireId × Bool)) {signals : Array Bool}
    (hs : signals.size = a.size) :
    let after := (drives.map fun drive => (a.place? drive.1, drive.2)).foldl write signals
    a.lit after = (a.lit signals).drive drives ∧ after.size = a.size := by
  induction drives generalizing signals with
  | nil => exact ⟨rfl, hs⟩
  | cons drive rest ih =>
    simp only [List.map_cons, List.foldl_cons, Arena.drive] at ih ⊢
    rw [← lit_write hs]
    exact ih ((size_write _ _).trans hs)

/-- The gates act on a panel as they act in the circuit. -/
theorem act_lit {a : Arena} (gates : List Gate) {signals : Array Bool}
    (hs : signals.size = a.size) :
    Shows a (Circuit.act gates (a.lit signals))
      (act (gates.map (Probe.ofGate a.place?)) signals) := by
  induction gates with
  | nil => exact ⟨rfl, rfl, hs⟩
  | cons gate later ih =>
    obtain ⟨probes, wires, size⟩ := ih
    have reaction : (Probe.ofGate a.place? gate).behaviour.react
        (read (act (later.map (Probe.ofGate a.place?)) signals).signals)
        (Probe.ofGate a.place? gate).gate.state (Probe.ofGate a.place? gate).pins =
          (gate.react (Circuit.act later (a.lit signals)).wires.isPowered).map a.place? := by
      rw [wires, ← read_place?]
      exact Behaviour.react_map _ _ _ _ _
    obtain ⟨hlit, hsize⟩ := lit_foldl_write
      (gate.react (Circuit.act later (a.lit signals)).wires.isPowered).drives size
    refine ⟨?_, ?_, ?_⟩
    · simp only [List.map_cons, act, Circuit.act, reaction, probes, Probe.withState_eq]
      rfl
    · simp only [List.map_cons, act, Circuit.act, reaction]
      rw [wires] at hlit ⊢
      exact hlit.symm
    · simp only [List.map_cons, act, reaction]
      exact hsize

/-- Rounds are repeated on a panel as they are in the circuit. -/
theorem settle_lit {a : Arena} (passed more : Nat) {c : Circuit} {panel : Panel}
    (h : Shows a c panel) :
    (c.settle passed more).1 = (panel.settle passed more).1 ∧
      Shows a (c.settle passed more).2 (panel.settle passed more).2 := by
  induction more generalizing passed c panel with
  | zero => exact ⟨rfl, h⟩
  | succ more ih =>
    have next : Shows a c.round (act panel.probes panel.signals) := by
      rw [Circuit.round, h.probes, h.wires]
      exact act_lit c.gates h.size
    have same : c.round.wires.levels = c.wires.levels ↔
        (act panel.probes panel.signals).signals = panel.signals := by
      rw [next.wires, h.wires]
      exact Arena.levels_lit_eq_iff next.size h.size
    simp only [Circuit.settle, settle, same]
    split
    · exact ⟨rfl, next⟩
    · exact ih _ next

/-- The panel of a circuit shows it. -/
theorem shows_ofCircuit (c : Circuit) : Shows c.wires c (ofCircuit c) :=
  ⟨rfl, c.wires.lit_signals.symm, c.wires.size_signals⟩

/-- The gates of a panel. -/
def gates (panel : Panel) : List Gate := panel.probes.map Probe.gate

theorem Shows.gates_eq {a : Arena} {c : Circuit} {panel : Panel} (h : Shows a c panel) :
    panel.gates = c.gates := by
  rw [gates, h.probes, List.map_map]
  exact List.map_id c.gates

end Panel

/-! ## Netlists -/

namespace Netlist

/-- The part of a netlist that a simulation changes. -/
def circuit (n : Netlist) : Circuit := ⟨n.gates, n.wires⟩

/-- Simulates a netlist. -/
def simulate (n : Netlist) : Circuit.Verdict × Netlist :=
  let (verdict, panel) := (Panel.ofCircuit n.circuit).settle 0 n.circuit.roundLimit
  (verdict, { n with gates := panel.gates, wires := n.wires.lit panel.signals })

/-- Simulating a netlist is simulating its circuit. -/
theorem simulate_eq (n : Netlist) :
    n.simulate =
      let (verdict, c) := n.circuit.simulate
      (verdict, { n with gates := c.gates, wires := c.wires }) := by
  obtain ⟨verdict, shows⟩ := Panel.settle_lit 0 n.circuit.roundLimit
    (Panel.shows_ofCircuit n.circuit)
  simp only [simulate, Circuit.simulate, verdict, shows.gates_eq, shows.wires]
  rfl

end Netlist

end Gatework
