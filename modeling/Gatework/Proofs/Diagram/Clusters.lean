import Gatework.Proofs.Diagram.Connections
import Gatework.Proofs.Netlist.Linking
import Mathlib.Data.Fintype.Card

/-!
# Clusters of a diagram

The clusters of a diagram are found by going down from the root, so whatever cannot be
reached from there would be lost.  Going up from a context comes to the root, since parent
links do not go round, and it does so within as many steps as there are contexts.

There are three groups.

* Going up: `climb` gives the cluster around a cluster, some steps up.
* `Diagram.items` is what stands in a cluster.  Its text is what the diagram writes.
* Which entries it has (`mem_entries_items`), and that none comes twice.
-/

namespace Gatework

namespace Netlist

variable {n : Netlist}

/-! ## Going up -/

/-- The cluster around that of a context. -/
def around? (n : Netlist) (id : ContextId) : Option ContextId :=
  (n.context? id).map n.clusterAround

/-- The cluster some steps up from another one. -/
def climb (n : Netlist) : Nat → ContextId → Option ContextId
  | 0, id => some id
  | steps + 1, id => (n.climb steps id).bind n.around?

theorem climb_add (first second : Nat) (id : ContextId) :
    n.climb (first + second) id = (n.climb first id).bind (n.climb second) := by
  induction second with
  | zero => exact (Option.bind_fun_some _).symm
  | succ second ih =>
    rw [← Nat.add_assoc, climb, ih, Option.bind_assoc]
    rfl

namespace Drawable

theorem around?_eq_some_iff (h : n.Drawable) {id around : ContextId} :
    n.around? id = some around ↔
      ∃ context ∈ n.contexts, context.id = id ∧ n.clusterAround context = around := by
  simp only [around?, Option.map_eq_some_iff, context?_eq_some_iff h.contexts, and_assoc]

/-- A cluster stands in the root or in the cluster of another context, its parent. -/
theorem around?_cases (h : n.Drawable) {id around : ContextId}
    (haround : n.around? id = some around) :
    around = .root ∨ around ∈ n.contexts.map Context.id ∧ n.ParentLink id around := by
  obtain ⟨context, hcontext, rfl, rfl⟩ := h.around?_eq_some_iff.1 haround
  unfold clusterAround clusterOf
  split
  · exact Or.inl rfl
  · next hself =>
    split
    · next hknown => exact Or.inr ⟨hknown, context, hcontext, rfl, rfl, hself⟩
    · exact Or.inl rfl

theorem around?_root (h : n.Drawable) : n.around? .root = none := by
  cases hroot : n.around? .root with
  | none => rfl
  | some around =>
    obtain ⟨context, hcontext, hid, -⟩ := h.around?_eq_some_iff.1 hroot
    exact absurd hid (h.ne_root context hcontext)

theorem climb_succ_root (h : n.Drawable) (steps : Nat) : n.climb (steps + 1) .root = none := by
  rw [Nat.add_comm, climb_add, climb, climb, Option.bind_some, h.around?_root]
  rfl

/-- Going up follows parent links until it comes to the root. -/
theorem transGen_of_climb (h : n.Drawable) {steps : Nat} {id up : ContextId}
    (hup : n.climb (steps + 1) id = some up) (hroot : up ≠ .root) :
    Relation.TransGen n.ParentLink id up := by
  induction steps generalizing up with
  | zero =>
    rw [climb, climb, Option.bind_some] at hup
    exact .single ((h.around?_cases hup).resolve_left hroot).2
  | succ steps ih =>
    obtain ⟨below, hbelow, hlast⟩ := Option.bind_eq_some_iff.1 hup
    have hlink := ((h.around?_cases hlast).resolve_left hroot).2
    refine .tail (ih hbelow ?_) hlink
    rintro rfl
    rw [h.around?_root] at hlast
    exact absurd hlast nofun

/-- Going up does not come back. -/
theorem climb_succ_ne_self (h : n.Drawable) (steps : Nat) (id : ContextId) :
    n.climb (steps + 1) id ≠ some id := by
  intro hself
  by_cases hroot : id = .root
  · rw [hroot, h.climb_succ_root] at hself
    exact absurd hself nofun
  · exact h.acyclic id (h.transGen_of_climb hself hroot)

/-- The number of steps tells what they lead to: two ways up into one cluster come through
the same cluster in it. -/
theorem eq_of_climb (h : n.Drawable) {id around child child' : ContextId} {steps steps' : Nat}
    (hchild : n.climb steps id = some child) (hchild' : n.climb steps' id = some child')
    (haround : n.around? child = some around) (haround' : n.around? child' = some around) :
    child = child' := by
  wlog hle : steps ≤ steps' generalizing child child' steps steps'
  · exact (this hchild' hchild haround' haround (by omega)).symm
  obtain ⟨more, rfl⟩ := Nat.exists_eq_add_of_le hle
  rw [climb_add, hchild, Option.bind_some] at hchild'
  cases more with
  | zero => exact Option.some.inj hchild'
  | succ more =>
    have hback : n.climb (more + 1) around = some around := by
      have hthrough : n.climb (1 + (more + 1)) child = some around := by
        rw [Nat.add_comm, climb, hchild', Option.bind_some, haround']
      rwa [climb_add, climb, climb, Option.bind_some, haround, Option.bind_some] at hthrough
    exact absurd hback (h.climb_succ_ne_self more around)

/-- Going up from a cluster comes to the root. -/
theorem exists_climb_root (h : n.Drawable) {id : ContextId}
    (hid : id = .root ∨ id ∈ n.contexts.map Context.id) :
    ∃ steps ≤ n.contexts.length, n.climb steps id = some .root := by
  by_contra hnever
  -- Otherwise there are more steps on the way than contexts, and one of these comes twice.
  have hway : ∀ steps ≤ n.contexts.length, ∃ up ∈ n.contexts.map Context.id,
      n.climb steps id = some up := by
    intro steps hsteps
    induction steps with
    | zero =>
      refine ⟨id, hid.resolve_left ?_, rfl⟩
      rintro rfl
      exact hnever ⟨0, Nat.zero_le _, rfl⟩
    | succ steps ih =>
      obtain ⟨below, hbelow, hclimb⟩ := ih (by omega)
      obtain ⟨context, hcontext, rfl⟩ := List.mem_map.1 hbelow
      have haround := h.around?_eq_some_iff.2 ⟨context, hcontext, rfl, rfl⟩
      have hnext : n.climb (steps + 1) id = some (n.clusterAround context) := by
        rw [climb, hclimb, Option.bind_some, haround]
      rcases h.around?_cases haround with hroot | ⟨hknown, -⟩
      · exact absurd ⟨steps + 1, hsteps, hroot ▸ hnext⟩ hnever
      · exact ⟨_, hknown, hnext⟩
  have hmaps : Set.MapsTo (fun steps => n.climb steps id) (Finset.range (n.contexts.length + 1))
      ((n.contexts.map fun context => some context.id).toFinset : Finset (Option ContextId)) := by
    intro steps hsteps
    obtain ⟨up, hup, hclimb⟩ := hway steps (Nat.lt_succ_iff.1 (Finset.mem_range.1 hsteps))
    obtain ⟨context, hcontext, rfl⟩ := List.mem_map.1 hup
    exact List.mem_toFinset.2 (List.mem_map.2 ⟨context, hcontext, hclimb.symm⟩)
  have hfew : ((n.contexts.map fun context => some context.id).toFinset).card <
      (Finset.range (n.contexts.length + 1)).card := by
    rw [Finset.card_range, Nat.lt_succ_iff]
    exact (List.toFinset_card_le _).trans_eq (List.length_map _)
  obtain ⟨i, hi, j, hj, hne, hsame⟩ := Finset.exists_ne_map_eq_of_card_lt_of_maps_to hfew hmaps
  wlog hlt : i < j generalizing i j
  · exact this j hj i hi hne.symm hsame.symm (by omega)
  obtain ⟨up, -, hup⟩ := hway i (Nat.lt_succ_iff.1 (Finset.mem_range.1 hi))
  obtain ⟨more, rfl⟩ := Nat.exists_eq_add_of_lt hlt
  refine h.climb_succ_ne_self more up ?_
  have hback : n.climb (i + (more + 1)) id = n.climb i id := hsame.symm
  rwa [climb_add, hup, Option.bind_some] at hback

end Drawable

end Netlist

/-! ## What stands in a cluster -/

namespace Diagram

variable {d : Diagram}

/-- The node of a box, and its stub. -/
def boxItems (d : Diagram) (box : Box) : List Item :=
  .record box.gate.id box.record ::
    match d.uses? box.gate.id with
    | some count => [.stub box.gate.id count]
    | none => []

/-- What stands in a cluster.  The number bounds the descent. -/
def items (d : Diagram) : Nat → ContextId → List Item
  | 0, _ => []
  | fuel + 1, cluster =>
    (d.boxesIn cluster).flatMap d.boxItems ++ (d.clustersIn cluster).flatMap fun child =>
      match d.netlist.context? child with
      | none => []
      | some context =>
        [.cluster child (recordLabel context.name ++ " " ++ child.text) (d.items fuel child)]

theorem boxLines_eq (depth : Nat) (box : Box) :
    d.boxLines depth box = Item.textAll depth (d.boxItems box) := by
  rw [boxLines, boxItems, Item.textAll, Item.text]
  congr 1
  cases d.uses? box.gate.id with
  | none => rfl
  | some count => exact String.append_empty.symm

/-- The lines of a cluster are those of what stands in it. -/
theorem clusterLines_eq (fuel depth : Nat) (cluster : ContextId) :
    d.clusterLines fuel depth cluster = Item.textAll depth (d.items fuel cluster) := by
  induction fuel generalizing depth cluster with
  | zero => rfl
  | succ fuel ih =>
    rw [clusterLines, items, Item.textAll_append, Item.textAll_flatMap, Item.textAll_flatMap,
      funext (boxLines_eq depth)]
    congr 3
    funext child
    cases d.netlist.context? child with
    | none => rfl
    | some context =>
      dsimp only
      rw [ih, Item.textAll, Item.textAll, Item.text, String.append_empty]
      simp only [String.append_assoc]
      rfl

/-- The entries of a cluster in another one. -/
def entriesBelow (d : Diagram) (fuel : Nat) (cluster child : ContextId) : List (ContextId × Item) :=
  match d.netlist.context? child with
  | none => []
  | some context => (cluster, .cluster child (recordLabel context.name ++ " " ++ child.text) []) ::
    Item.entriesAll child (d.items fuel child)

theorem entriesAll_items_succ (fuel : Nat) (cluster : ContextId) :
    Item.entriesAll cluster (d.items (fuel + 1) cluster) =
      ((d.boxesIn cluster).flatMap d.boxItems).map (fun item => (cluster, item)) ++
        (d.clustersIn cluster).flatMap (d.entriesBelow fuel cluster) := by
  rw [items, Item.entriesAll_append, Item.entriesAll_flatMap, Item.entriesAll_flatMap,
    List.map_flatMap]
  congr 2
  · funext box
    rw [boxItems]
    cases d.uses? box.gate.id <;> rfl
  · funext child
    rw [entriesBelow]
    cases d.netlist.context? child with
    | none => rfl
    | some context => exact List.append_nil _

/-- The gate that an item belongs to. -/
def Item.owner? : Item → Option GateId
  | record gate _ | stub gate _ => some gate
  | cluster _ _ _ => none

theorem owner?_of_mem_boxItems {box : Box} {item : Item} (h : item ∈ d.boxItems box) :
    item.owner? = some box.gate.id := by
  rw [boxItems] at h
  rcases List.mem_cons.1 h with rfl | h
  · rfl
  · split at h
    · rw [List.mem_singleton.1 h]
      rfl
    · exact absurd h List.not_mem_nil

theorem nodup_boxItems (box : Box) : (d.boxItems box).Nodup := by
  rw [boxItems]
  split <;> simp

end Diagram

namespace Netlist.Drawable

open Diagram

variable {n : Netlist} (h : n.Drawable)

include h

theorem isSome_context?_iff {id : ContextId} :
    (n.context? id).isSome = true ↔ id ∈ n.contexts.map Context.id := by
  rw [Option.isSome_iff_exists, List.mem_map]
  simp only [context?_eq_some_iff h.contexts]

theorem clusterOf_eq (gate : Gate) : Box.clusterOf n gate = n.clusterOf gate.context := by
  simp only [Box.clusterOf, clusterOf, h.isSome_context?_iff]

theorem aroundOf_eq (context : Context) :
    Cluster.aroundOf n context = n.clusterAround context := by
  by_cases hself : context.parent = context.id
  · simp [Cluster.aroundOf, clusterAround, hself]
  · simp only [Cluster.aroundOf, clusterAround, clusterOf, bne_iff_ne, ne_eq, hself,
      not_false_eq_true, and_true, Bool.and_eq_true, h.isSome_context?_iff, if_false]

theorem mem_boxesIn {box : Box} {cluster : ContextId} :
    box ∈ (ofNetlist n).boxesIn cluster ↔
      ∃ gate ∈ n.gates, cluster = n.clusterOf gate.context ∧ box = Box.ofGate n gate := by
  rw [boxesIn, List.mem_filter, ofNetlist, List.mem_map]
  constructor
  · rintro ⟨⟨gate, hgate, rfl⟩, hcluster⟩
    exact ⟨gate, hgate, (beq_iff_eq.1 hcluster).symm.trans (h.clusterOf_eq gate), rfl⟩
  · rintro ⟨gate, hgate, rfl, rfl⟩
    exact ⟨⟨gate, hgate, rfl⟩, beq_iff_eq.2 (h.clusterOf_eq gate)⟩

theorem mem_clustersIn {child cluster : ContextId} :
    child ∈ (ofNetlist n).clustersIn cluster ↔ n.around? child = some cluster := by
  rw [h.around?_eq_some_iff, clustersIn, List.mem_map]
  simp only [ofNetlist, List.mem_filter, List.mem_map, beq_iff_eq]
  constructor
  · rintro ⟨_, ⟨⟨context, hcontext, rfl⟩, hcluster⟩, rfl⟩
    exact ⟨context, hcontext, rfl, (h.aroundOf_eq context).symm.trans hcluster⟩
  · rintro ⟨context, hcontext, rfl, hcluster⟩
    exact ⟨_, ⟨⟨context, hcontext, rfl⟩, (h.aroundOf_eq context).trans hcluster⟩, rfl⟩

theorem nodup_clustersIn (cluster : ContextId) : ((ofNetlist n).clustersIn cluster).Nodup := by
  have hids : (ofNetlist n).clusters.map Cluster.context = n.contexts.map Context.id := by
    rw [ofNetlist, List.map_map]
    rfl
  exact (hids ▸ h.contexts).sublist (List.filter_sublist.map _)

/-- The items of the boxes in a cluster are those that gates put there. -/
theorem mem_flatMap_boxItems {cluster : ContextId} {item : Item} :
    item ∈ ((ofNetlist n).boxesIn cluster).flatMap (ofNetlist n).boxItems ↔
      (∃ gate ∈ n.gates, cluster = n.clusterOf gate.context ∧
        item = .record gate.id (Box.ofGate n gate).record) ∨
      ∃ gate ∈ n.gates, 10 ≤ n.fanout gate ∧ cluster = n.clusterOf gate.context ∧
        item = .stub gate.id (n.fanout gate) := by
  have hitems {gate : Gate} (hgate : gate ∈ n.gates) :
      item ∈ (ofNetlist n).boxItems (Box.ofGate n gate) ↔
        item = .record gate.id (Box.ofGate n gate).record ∨
          10 ≤ n.fanout gate ∧ item = .stub gate.id (n.fanout gate) := by
    have huses : (ofNetlist n).uses? (Box.ofGate n gate).gate.id =
        if 10 ≤ n.fanout gate then some (n.fanout gate) else none := h.uses?_eq hgate
    rw [boxItems, List.mem_cons, huses]
    refine or_congr_right ?_
    split_ifs with hhub
    · exact List.mem_singleton.trans (and_iff_right hhub).symm
    · exact iff_of_false List.not_mem_nil fun hstub => hhub hstub.1
  rw [List.mem_flatMap]
  constructor
  · rintro ⟨box, hbox, hitem⟩
    obtain ⟨gate, hgate, hcluster, rfl⟩ := h.mem_boxesIn.1 hbox
    rcases (hitems hgate).1 hitem with hrecord | ⟨hhub, hstub⟩
    · exact Or.inl ⟨gate, hgate, hcluster, hrecord⟩
    · exact Or.inr ⟨gate, hgate, hhub, hcluster, hstub⟩
  · rintro (⟨gate, hgate, hcluster, hrecord⟩ | ⟨gate, hgate, hhub, hcluster, hstub⟩)
    · exact ⟨_, h.mem_boxesIn.2 ⟨gate, hgate, hcluster, rfl⟩, (hitems hgate).2 (Or.inl hrecord)⟩
    · exact ⟨_, h.mem_boxesIn.2 ⟨gate, hgate, hcluster, rfl⟩,
        (hitems hgate).2 (Or.inr ⟨hhub, hstub⟩)⟩

/-- An entry of a child is the child itself, or an entry inside it. -/
theorem mem_entriesBelow {fuel : Nat} {context : Context} (hcontext : context ∈ n.contexts)
    {cluster : ContextId} {entry : ContextId × Item} :
    entry ∈ (ofNetlist n).entriesBelow fuel cluster context.id ↔
      entry = (cluster, .ofContext context) ∨
        entry ∈ Item.entriesAll context.id ((ofNetlist n).items fuel context.id) := by
  have hfind : (ofNetlist n).netlist.context? context.id = some context :=
    (context?_eq_some_iff h.contexts).2 ⟨hcontext, rfl⟩
  rw [entriesBelow, hfind]
  exact List.mem_cons

/-- A cluster lists what belongs into it, and what belongs into the clusters inside it, down
to some depth. -/
theorem mem_entriesAll_items {fuel : Nat} {cluster around : ContextId} {item : Item} :
    (around, item) ∈ Item.entriesAll cluster ((ofNetlist n).items fuel cluster) ↔
      n.Places around item ∧ ∃ steps < fuel, n.climb steps around = some cluster := by
  induction fuel generalizing cluster with
  | zero => exact iff_of_false List.not_mem_nil fun hplaces => by omega
  | succ fuel ih =>
    rw [entriesAll_items_succ, List.mem_append, List.mem_map, List.mem_flatMap]
    constructor
    · rintro (⟨_, hitem, heq⟩ | ⟨child, hchild, hentry⟩)
      · cases heq
        exact ⟨Or.inr (h.mem_flatMap_boxItems.1 hitem), 0, Nat.succ_pos _, rfl⟩
      · rw [h.mem_clustersIn, h.around?_eq_some_iff] at hchild
        obtain ⟨context, hcontext, rfl, hcluster⟩ := hchild
        rcases (h.mem_entriesBelow hcontext).1 hentry with heq | hinside
        · cases heq
          exact ⟨Or.inl ⟨context, hcontext, hcluster.symm, rfl⟩, 0, Nat.succ_pos _, rfl⟩
        · obtain ⟨hplaces, steps, hsteps, hclimb⟩ := ih.1 hinside
          refine ⟨hplaces, steps + 1, by omega, ?_⟩
          rw [climb, hclimb, Option.bind_some]
          exact h.around?_eq_some_iff.2 ⟨context, hcontext, rfl, hcluster⟩
    · rintro ⟨hplaces, steps, hsteps, hclimb⟩
      cases steps with
      | zero =>
        cases hclimb
        rcases hplaces with ⟨context, hcontext, haround, rfl⟩ | hgates
        · have hchild := h.around?_eq_some_iff.2 ⟨context, hcontext, rfl, haround.symm⟩
          exact Or.inr ⟨context.id, h.mem_clustersIn.2 hchild,
            (h.mem_entriesBelow hcontext).2 (Or.inl rfl)⟩
        · exact Or.inl ⟨item, h.mem_flatMap_boxItems.2 hgates, rfl⟩
      | succ steps =>
        obtain ⟨child, hbelow, hchild⟩ := Option.bind_eq_some_iff.1 hclimb
        obtain ⟨context, hcontext, rfl, hcluster⟩ := h.around?_eq_some_iff.1 hchild
        exact Or.inr ⟨context.id, h.mem_clustersIn.2 hchild, (h.mem_entriesBelow hcontext).2
          (Or.inr (ih.2 ⟨hplaces, steps, by omega, hbelow⟩))⟩

/-- A cluster is not inside one that stands in it. -/
theorem climb_ne_child {child cluster : ContextId} (hchild : n.around? child = some cluster)
    (steps : Nat) : n.climb steps cluster ≠ some child := by
  intro hclimb
  refine h.climb_succ_ne_self steps cluster ?_
  rw [climb, hclimb, Option.bind_some, hchild]

theorem nodup_flatMap_boxItems (cluster : ContextId) :
    (((ofNetlist n).boxesIn cluster).flatMap (ofNetlist n).boxItems).Nodup := by
  refine List.nodup_flatMap.2 ⟨fun box _ => nodup_boxItems box, ?_⟩
  refine (h.nodup_boxes.filter _).imp_of_mem fun hbox hbox' hne item hitem hitem' => hne ?_
  obtain ⟨gate, hgate, -, rfl⟩ := h.mem_boxesIn.1 hbox
  obtain ⟨gate', hgate', -, rfl⟩ := h.mem_boxesIn.1 hbox'
  have hid : gate.id = gate'.id := Option.some.inj
    ((owner?_of_mem_boxItems hitem).symm.trans (owner?_of_mem_boxItems hitem'))
  rw [h.eq_of_id_eq hgate hgate' hid]

/-- The entries of two children differ, and so do the entries of a child and the nodes beside
it. -/
theorem disjoint_entriesBelow {fuel : Nat} {cluster child child' : ContextId}
    (hchild : n.around? child = some cluster) (hchild' : n.around? child' = some cluster)
    (hne : child ≠ child') : List.Disjoint ((ofNetlist n).entriesBelow fuel cluster child)
      ((ofNetlist n).entriesBelow fuel cluster child') := by
  obtain ⟨context, hcontext, rfl, -⟩ := h.around?_eq_some_iff.1 hchild
  obtain ⟨context', hcontext', rfl, -⟩ := h.around?_eq_some_iff.1 hchild'
  rintro ⟨around, item⟩ hentry hentry'
  rcases (h.mem_entriesBelow hcontext).1 hentry with heq | hinside
  · cases heq
    rcases (h.mem_entriesBelow hcontext').1 hentry' with heq' | hinside'
    · exact hne (Item.cluster.inj (congrArg Prod.snd heq')).1
    · obtain ⟨-, steps, -, hclimb⟩ := h.mem_entriesAll_items.1 hinside'
      exact h.climb_ne_child hchild' steps hclimb
  · obtain ⟨-, steps, -, hclimb⟩ := h.mem_entriesAll_items.1 hinside
    rcases (h.mem_entriesBelow hcontext').1 hentry' with heq' | hinside'
    · cases heq'
      exact h.climb_ne_child hchild steps hclimb
    · obtain ⟨-, steps', -, hclimb'⟩ := h.mem_entriesAll_items.1 hinside'
      exact hne (h.eq_of_climb hclimb hclimb' hchild hchild')

/-- A cluster lists nothing twice. -/
theorem nodup_entriesAll_items (fuel : Nat) (cluster : ContextId) :
    (Item.entriesAll cluster ((ofNetlist n).items fuel cluster)).Nodup := by
  induction fuel generalizing cluster with
  | zero => exact List.nodup_nil
  | succ fuel ih =>
    rw [entriesAll_items_succ]
    refine List.nodup_append.2 ⟨?_, List.nodup_flatMap.2 ⟨fun child hchild => ?_, ?_⟩, ?_⟩
    · exact (h.nodup_flatMap_boxItems cluster).map fun item other heq => congrArg Prod.snd heq
    · rw [entriesBelow]
      cases (ofNetlist n).netlist.context? child with
      | none => exact List.nodup_nil
      | some context =>
        refine List.nodup_cons.2 ⟨fun hinside => ?_, ih child⟩
        obtain ⟨-, steps, -, hclimb⟩ := h.mem_entriesAll_items.1 hinside
        exact h.climb_ne_child (h.mem_clustersIn.1 hchild) steps hclimb
    · exact (h.nodup_clustersIn cluster).imp_of_mem fun hchild hchild' hne =>
        h.disjoint_entriesBelow (h.mem_clustersIn.1 hchild) (h.mem_clustersIn.1 hchild') hne
    · rintro ⟨around, item⟩ hnode ⟨around', item'⟩ hentry heq
      cases heq
      obtain ⟨item, hitem, heq⟩ := List.mem_map.1 hnode
      cases heq
      obtain ⟨box, -, hbox⟩ := List.mem_flatMap.1 hitem
      obtain ⟨child, hchild, hbelow⟩ := List.mem_flatMap.1 hentry
      rw [h.mem_clustersIn] at hchild
      obtain ⟨context, hcontext, rfl, -⟩ := h.around?_eq_some_iff.1 hchild
      rcases (h.mem_entriesBelow hcontext).1 hbelow with heq | hinside
      · have howner := owner?_of_mem_boxItems hbox
        rw [show item = .ofContext context from congrArg Prod.snd heq] at howner
        exact absurd howner nofun
      · obtain ⟨-, steps, -, hclimb⟩ := h.mem_entriesAll_items.1 hinside
        exact h.climb_ne_child hchild steps hclimb

/-- From the root everything is listed. -/
theorem mem_entriesAll_root {around : ContextId} {item : Item} :
    (around, item) ∈
        Item.entriesAll .root ((ofNetlist n).items (n.contexts.length + 1) .root) ↔
      n.Places around item := by
  refine h.mem_entriesAll_items.trans (and_iff_left_of_imp fun hplaces => ?_)
  have hknown : around = .root ∨ around ∈ n.contexts.map Context.id := by
    have hclusterOf (id : ContextId) :
        n.clusterOf id = .root ∨ n.clusterOf id ∈ n.contexts.map Context.id := by
      unfold clusterOf
      split
      · next hid => exact Or.inr hid
      · exact Or.inl rfl
    rcases hplaces with ⟨context, -, rfl, -⟩ | ⟨gate, -, rfl, -⟩ | ⟨gate, -, -, rfl, -⟩
    · unfold clusterAround
      split
      · exact Or.inl rfl
      · exact hclusterOf context.parent
    · exact hclusterOf gate.context
    · exact hclusterOf gate.context
  obtain ⟨steps, hsteps, hclimb⟩ := h.exists_climb_root hknown
  exact ⟨steps, by omega, hclimb⟩

end Netlist.Drawable

end Gatework
