import Gatework.Proofs.Diagram.Graph
import Mathlib.Data.List.Nodup

/-!
# Edges of a diagram

There are four groups.

* Ascending lists hold what they are made of, once.
* A gate of the netlist is a hub if it feeds ten gates or more (`Drawable.uses?_eq`).
* The connections to a box are those to its gate (`Drawable.mem_edgesOf`), and which of them
  are drawn.
* `Diagram.arrows` are the edges of a diagram, box by box.  These are the edges that there
  have to be (`Drawable.mem_arrows`), each once.
-/

namespace Gatework

/-! ## Ascending lists -/

section

variable {α : Type} [DecidableEq α] [LT α] [DecidableLT α]

theorem mem_insertAscending {a b : α} {items : List α} :
    b ∈ insertAscending a items ↔ b = a ∨ b ∈ items := by
  induction items with
  | nil => simp [insertAscending]
  | cons first rest ih =>
    rw [insertAscending]
    split
    · next heq =>
      subst heq
      simp
    · split
      · simp
      · rw [List.mem_cons, ih, List.mem_cons, or_left_comm]

theorem mem_ascending {b : α} {items : List α} : b ∈ ascending items ↔ b ∈ items := by
  induction items with
  | nil => rfl
  | cons first rest ih =>
    rw [ascending, List.foldr_cons, mem_insertAscending, List.mem_cons]
    exact or_congr_right ih

theorem perm_insertAscending {a : α} {items : List α} (h : a ∉ items) :
    (insertAscending a items).Perm (a :: items) := by
  induction items with
  | nil => exact .refl _
  | cons first rest ih =>
    rw [List.mem_cons, not_or] at h
    rw [insertAscending, if_neg h.1]
    split
    · exact .refl _
    · exact ((ih h.2).cons first).trans (.swap a first rest)

/-- Elements that differ are all kept. -/
theorem perm_ascending {items : List α} (h : items.Nodup) : (ascending items).Perm items := by
  induction items with
  | nil => exact .refl _
  | cons first rest ih =>
    rw [List.nodup_cons] at h
    have hfirst : first ∉ ascending rest := fun hmem => h.1 (mem_ascending.1 hmem)
    exact (perm_insertAscending hfirst).trans ((ih h.2).cons first)

variable [IsStrictTotalOrder α (· < ·)]

theorem sorted_insertAscending {a : α} {items : List α} (h : items.Pairwise (· < ·)) :
    (insertAscending a items).Pairwise (· < ·) := by
  induction items with
  | nil => exact List.pairwise_singleton _ _
  | cons first rest ih =>
    obtain ⟨hfirst, hrest⟩ := List.pairwise_cons.1 h
    rw [insertAscending]
    split
    · exact h
    · next hne =>
      split
      · next hlt =>
        refine List.pairwise_cons.2 ⟨List.forall_mem_cons.2 ⟨hlt, fun b hb => ?_⟩, h⟩
        exact IsTrans.trans _ _ _ hlt (hfirst b hb)
      · next hnot =>
        refine List.pairwise_cons.2 ⟨fun b hb => ?_, ih hrest⟩
        rcases mem_insertAscending.1 hb with rfl | hb
        · exact ((trichotomous_of (· < ·) b first).resolve_left hnot).resolve_left hne
        · exact hfirst b hb

/-- In a total order nothing is left twice. -/
theorem nodup_ascending (items : List α) : (ascending items).Nodup := by
  have hsorted : (ascending items).Pairwise (· < ·) := by
    induction items with
    | nil => exact .nil
    | cons first rest ih => exact sorted_insertAscending ih
  exact hsorted.imp fun hlt => ne_of_irrefl hlt

end

instance : IsStrictTotalOrder ContextId (· < ·) where
  irrefl a := UInt32.lt_irrefl a.number
  trans _ _ _ := UInt32.lt_trans
  trichotomous := by
    rintro ⟨a⟩ ⟨b⟩ hab hba
    exact congrArg _ (UInt32.le_antisymm (UInt32.not_lt.1 hba) (UInt32.not_lt.1 hab))

/-! ## Hubs -/

namespace Netlist.Drawable

variable {n : Netlist}

theorem eq_of_id_eq (h : n.Drawable) {gate other : Gate} (hgate : gate ∈ n.gates)
    (hother : other ∈ n.gates) (hid : gate.id = other.id) : gate = other :=
  List.inj_on_of_nodup_map h.gates hgate hother hid

theorem outputsOf_id (h : n.Drawable) {gate : Gate} (hgate : gate ∈ n.gates) :
    n.outputsOf gate.id = gate.outputs := by
  have hsame : (n.gates.filter fun source => source.id == gate.id).Perm [gate] := by
    have hnodup := (h.gates.of_map Gate.id).filter fun source => source.id == gate.id
    refine (List.perm_ext_iff_of_nodup hnodup (List.nodup_singleton gate)).2 fun source => ?_
    rw [List.mem_filter, List.mem_singleton, beq_iff_eq]
    constructor
    · exact fun hsource => h.eq_of_id_eq hsource.1 hgate hsource.2
    · rintro rfl
      exact ⟨hgate, rfl⟩
  rw [outputsOf, List.perm_singleton.1 hsame, List.flatMap_singleton]

/-- The number of gates that a gate feeds, by their identifiers. -/
theorem length_fed (h : n.Drawable) {gate : Gate} (hgate : gate ∈ n.gates) :
    (n.fed gate.id).length = n.fanout gate := by
  have hnodup : ((n.gates.filter fun target =>
      target.inputs.any gate.outputs.contains).map Gate.id).Nodup :=
    h.gates.sublist (List.filter_sublist.map _)
  rw [fed, h.outputsOf_id hgate, (perm_ascending hnodup).length_eq, List.length_map, fanout]

/-- A gate is a hub if it feeds ten gates or more. -/
theorem uses?_eq (h : n.Drawable) {gate : Gate} (hgate : gate ∈ n.gates) :
    (Diagram.ofNetlist n).uses? gate.id =
      if 10 ≤ n.fanout gate then some (n.fanout gate) else none := by
  rw [Diagram.uses?_ofNetlist, uses?, h.length_fed hgate]
  rfl

/-! ## Connections to a box -/

/-- The connections to a box come from the gates that drive its inputs. -/
theorem mem_edgesOf (target : Gate) (edge : Edge) :
    edge ∈ Box.edgesOf n target ↔ ∃ source ∈ n.gates, edge.source = source.id ∧
      edge.wire ∈ source.outputs ∧ target.inputs[edge.input]? = some edge.wire := by
  rw [Box.edgesOf, mem_ascending, List.mem_flatMap]
  refine exists_congr fun source => and_congr_right fun _ => ?_
  rw [List.mem_map]
  constructor
  · rintro ⟨⟨wire, input⟩, hinput, rfl⟩
    obtain ⟨hwire, hdriven⟩ := List.mem_filter.1 hinput
    exact ⟨rfl, by simpa using hdriven, List.mem_zipIdx_iff_getElem?.1 hwire⟩
  · rintro ⟨hsource, hdriven, hwire⟩
    refine ⟨(edge.wire, edge.input), List.mem_filter.2
      ⟨List.mem_zipIdx_iff_getElem?.2 hwire, by simpa using hdriven⟩, ?_⟩
    rw [← hsource]

/-- A connection to a gate is given by its source and its input. -/
theorem eq_of_mem_edgesOf {target : Gate} {edge other : Edge} (hedge : edge ∈ Box.edgesOf n target)
    (hother : other ∈ Box.edgesOf n target) (hsource : edge.source = other.source)
    (hinput : edge.input = other.input) : edge = other := by
  obtain ⟨-, -, -, -, hwire⟩ := (mem_edgesOf target edge).1 hedge
  obtain ⟨-, -, -, -, hwire'⟩ := (mem_edgesOf target other).1 hother
  obtain ⟨source, wire, input⟩ := edge
  obtain ⟨source', wire', input'⟩ := other
  dsimp only at hsource hinput hwire hwire'
  subst hsource hinput
  rw [Option.some.inj (hwire.symm.trans hwire')]

theorem nodup_edgesOf (h : n.Drawable) (target : Gate) : (Box.edgesOf n target).Nodup := by
  have hnodup : (n.gates.flatMap fun driver =>
      (target.inputs.zipIdx.filter fun input => driver.outputs.contains input.1).map fun input =>
        (⟨driver.id, input.1, input.2⟩ : Edge)).Nodup := by
    refine List.nodup_flatMap.2 ⟨fun driver _ => ?_, ?_⟩
    · have hzip : (target.inputs.zipIdx.map Prod.snd).Nodup := by
        rw [List.zipIdx_map_snd]
        exact List.nodup_range'
      refine ((hzip.of_map _).filter _).map_on ?_
      rintro ⟨wire, input⟩ - ⟨wire', input'⟩ - heq
      cases heq
      rfl
    · refine (List.pairwise_map.1 h.gates).imp fun hne edge hedge hedge' => ?_
      obtain ⟨_, -, rfl⟩ := List.mem_map.1 hedge
      obtain ⟨_, -, heq⟩ := List.mem_map.1 hedge'
      exact hne (congrArg Edge.source heq).symm
  exact (perm_ascending hnodup).nodup_iff.2 hnodup

end Netlist.Drawable

/-! ## Edges that are drawn -/

namespace Diagram

variable {d : Diagram}

/-- An edge is drawn unless it comes from a hub and there is another one. -/
theorem mem_drawnEdges {box : Box} (hnodup : box.edges.Nodup) {edge : Edge} :
    edge ∈ d.drawnEdges box ↔ edge ∈ box.edges ∧
      ¬((d.uses? edge.source).isSome = true ∧ ∃ other ∈ box.edges, other ≠ edge) := by
  unfold drawnEdges
  split
  · next only heq =>
    rw [heq, List.mem_singleton]
    refine ⟨fun hedge => ⟨hedge, ?_⟩, And.left⟩
    rintro ⟨-, other, hother, hne⟩
    exact hne ((List.mem_singleton.1 hother).trans hedge.symm)
  · next hmany =>
    rw [List.mem_filter]
    refine and_congr_right fun hedge => ?_
    have hother : ∃ other ∈ box.edges, other ≠ edge := by
      match heq : box.edges, hmany with
      | [], _ => exact absurd (heq ▸ hedge) List.not_mem_nil
      | [only], hmany => exact absurd rfl (hmany only)
      | first :: second :: rest, _ =>
        rw [heq, List.nodup_cons] at hnodup
        by_cases hfirst : first = edge
        · refine ⟨second, List.mem_cons_of_mem _ List.mem_cons_self, fun hsecond => ?_⟩
          exact hnodup.1 (hfirst.trans hsecond.symm ▸ List.mem_cons_self)
        · exact ⟨first, List.mem_cons_self, hfirst⟩
    rw [and_iff_left hother, Option.isNone_iff_eq_none, Option.not_isSome_iff_eq_none]

theorem sublist_drawnEdges (box : Box) : (d.drawnEdges box).Sublist box.edges := by
  unfold drawnEdges
  split
  · next heq => rw [heq]
  · exact List.filter_sublist

/-- The edges to the inputs of a box, and the one to its stub. -/
def arrowsOf (d : Diagram) (box : Box) : List Arrow :=
  (d.drawnEdges box).map (fun edge => .connection edge.source box.gate.id edge.input
    (d.netlist.wires.isPowered edge.wire)) ++
    if (d.uses? box.gate.id).isSome then [.uses box.gate.id] else []

/-- The gate at whose box an edge is listed. -/
def Arrow.owner : Arrow → GateId
  | connection _ target _ _ => target
  | uses gate => gate

theorem owner_of_mem_arrowsOf {box : Box} {arrow : Arrow} (h : arrow ∈ d.arrowsOf box) :
    arrow.owner = box.gate.id := by
  rcases List.mem_append.1 h with hconnection | huses
  · obtain ⟨edge, -, rfl⟩ := List.mem_map.1 hconnection
    rfl
  · split at huses
    · rw [List.mem_singleton.1 huses]
      rfl
    · exact absurd huses List.not_mem_nil

/-- The edges of a diagram. -/
def arrows (d : Diagram) : List Arrow := d.boxesByCluster.flatMap d.arrowsOf

theorem edgeLines_eq (box : Box) :
    d.edgeLines box = String.join ((d.arrowsOf box).map Arrow.text) := by
  rw [edgeLines, arrowsOf, List.map_append, String.join_append, List.map_map]
  congr 1
  split <;> rfl

/-- The lines of the edges. -/
theorem join_map_edgeLines :
    String.join (d.boxesByCluster.map d.edgeLines) = String.join (d.arrows.map Arrow.text) := by
  rw [arrows]
  induction d.boxesByCluster with
  | nil => rfl
  | cons box boxes ih =>
    rw [List.map_cons, String.join_cons, ih, List.flatMap_cons, List.map_append,
      String.join_append, edgeLines_eq]

/-- Every box stands in one of the clusters that are gone through. -/
theorem mem_boxesByCluster {box : Box} : box ∈ d.boxesByCluster ↔ box ∈ d.boxes := by
  rw [boxesByCluster, List.mem_flatMap]
  constructor
  · rintro ⟨cluster, -, hbox⟩
    exact (List.mem_filter.1 hbox).1
  · intro hbox
    exact ⟨box.cluster, mem_ascending.2 (List.mem_map_of_mem hbox),
      List.mem_filter.2 ⟨hbox, beq_self_eq_true _⟩⟩

theorem cluster_of_mem_boxesIn {box : Box} {cluster : ContextId} (h : box ∈ d.boxesIn cluster) :
    box.cluster = cluster := by
  simpa using (List.mem_filter.1 h).2

theorem nodup_boxesByCluster (h : d.boxes.Nodup) : d.boxesByCluster.Nodup := by
  refine List.nodup_flatMap.2 ⟨fun cluster _ => h.filter _, ?_⟩
  refine (nodup_ascending _).imp fun hne box hbox hbox' => hne ?_
  rw [← cluster_of_mem_boxesIn hbox, cluster_of_mem_boxesIn hbox']

end Diagram

namespace Netlist.Drawable

open Diagram

variable {n : Netlist} (h : n.Drawable)

include h

theorem nodup_boxes : (ofNetlist n).boxes.Nodup := by
  refine (h.gates.of_map Gate.id).map fun gate other heq => ?_
  exact congrArg Box.gate heq

theorem isSome_uses?_iff {gate : Gate} (hgate : gate ∈ n.gates) :
    ((ofNetlist n).uses? gate.id).isSome = true ↔ 10 ≤ n.fanout gate := by
  rw [h.uses?_eq hgate]
  split <;> simp_all

/-- The connections to a gate are two or more if there is another one besides a given one. -/
theorem exists_other_iff {target : Gate} (htarget : target ∈ n.gates) {edge : Edge}
    (hedge : edge ∈ Box.edgesOf n target) :
    (∃ other ∈ Box.edgesOf n target, other ≠ edge) ↔ n.Joins target := by
  constructor
  · rintro ⟨other, hother, hne⟩
    obtain ⟨source, hsource, hid, hdriven, hwire⟩ := (mem_edgesOf target edge).1 hedge
    obtain ⟨source', hsource', hid', hdriven', hwire'⟩ := (mem_edgesOf target other).1 hother
    refine ⟨source, edge.input, edge.wire, source', other.input, other.wire,
      ⟨hsource, htarget, hwire, hdriven⟩, ⟨hsource', htarget, hwire', hdriven'⟩, ?_⟩
    by_contra hsame
    obtain ⟨rfl, hinput⟩ := (not_or.1 hsame).imp not_not.1 not_not.1
    exact hne (eq_of_mem_edgesOf hother hedge (hid'.trans hid.symm) hinput.symm)
  · rintro ⟨source, input, wire, source', input', wire', hfirst, hsecond, hdiffer⟩
    have hmem : (⟨source.id, wire, input⟩ : Edge) ∈ Box.edgesOf n target :=
      (mem_edgesOf target _).2 ⟨source, hfirst.1, rfl, hfirst.2.2.2, hfirst.2.2.1⟩
    have hmem' : (⟨source'.id, wire', input'⟩ : Edge) ∈ Box.edgesOf n target :=
      (mem_edgesOf target _).2 ⟨source', hsecond.1, rfl, hsecond.2.2.2, hsecond.2.2.1⟩
    by_cases heq : (⟨source.id, wire, input⟩ : Edge) = edge
    · refine ⟨_, hmem', fun heq' => ?_⟩
      have hsame := heq.trans heq'.symm
      rcases hdiffer with hsource | hinput
      · exact hsource (h.eq_of_id_eq hfirst.1 hsecond.1 (congrArg Edge.source hsame))
      · exact hinput (congrArg Edge.input hsame)
    · exact ⟨_, hmem, heq⟩

theorem mem_arrowsOf {target : Gate} (htarget : target ∈ n.gates) (arrow : Arrow) :
    arrow ∈ (ofNetlist n).arrowsOf (Box.ofGate n target) ↔
      (∃ source input wire, n.Connects source target input wire ∧
        ¬(10 ≤ n.fanout source ∧ n.Joins target) ∧
        arrow = .connection source.id target.id input (n.wires.isPowered wire)) ∨
      10 ≤ n.fanout target ∧ arrow = .uses target.id := by
  have hdrawn (edge : Edge) : edge ∈ (ofNetlist n).drawnEdges (Box.ofGate n target) ↔
      edge ∈ Box.edgesOf n target ∧ ¬(((ofNetlist n).uses? edge.source).isSome = true ∧
        ∃ other ∈ Box.edgesOf n target, other ≠ edge) := mem_drawnEdges (h.nodup_edgesOf target)
  rw [arrowsOf, List.mem_append, List.mem_map]
  refine or_congr ⟨?_, ?_⟩ ?_
  · rintro ⟨edge, hedge, rfl⟩
    obtain ⟨hmem, hshown⟩ := (hdrawn edge).1 hedge
    obtain ⟨source, hsource, hid, hdriven, hwire⟩ := (mem_edgesOf target edge).1 hmem
    rw [h.exists_other_iff htarget hmem, hid, h.isSome_uses?_iff hsource] at hshown
    exact ⟨source, edge.input, edge.wire, ⟨hsource, htarget, hwire, hdriven⟩, hshown, hid ▸ rfl⟩
  · rintro ⟨source, input, wire, hconnects, hshown, rfl⟩
    have hmem : (⟨source.id, wire, input⟩ : Edge) ∈ Box.edgesOf n target :=
      (mem_edgesOf target _).2 ⟨source, hconnects.1, rfl, hconnects.2.2.2, hconnects.2.2.1⟩
    refine ⟨_, (hdrawn _).2 ⟨hmem, ?_⟩, rfl⟩
    rwa [h.exists_other_iff htarget hmem, h.isSome_uses?_iff hconnects.1]
  · have hhub := h.isSome_uses?_iff htarget
    rw [← hhub]
    show arrow ∈ (if ((ofNetlist n).uses? target.id).isSome then [Arrow.uses target.id] else []) ↔ _
    split
    · next hsome => rw [List.mem_singleton, and_iff_right hsome]
    · next hnone => exact iff_of_false List.not_mem_nil fun hmem => hnone hmem.1

/-- The edges of the diagram are those that there have to be. -/
theorem mem_arrows (arrow : Arrow) : arrow ∈ (ofNetlist n).arrows ↔ n.Draws arrow := by
  have hboxes : arrow ∈ (ofNetlist n).arrows ↔
      ∃ target ∈ n.gates, arrow ∈ (ofNetlist n).arrowsOf (Box.ofGate n target) := by
    rw [arrows, List.mem_flatMap]
    simp only [mem_boxesByCluster, ofNetlist, List.mem_map, exists_exists_and_eq_and]
  rw [hboxes, Draws]
  constructor
  · rintro ⟨target, htarget, harrow⟩
    rcases (h.mem_arrowsOf htarget arrow).1 harrow with ⟨source, input, wire, hshown⟩ | huses
    · exact Or.inl ⟨source, target, input, wire, hshown⟩
    · exact Or.inr ⟨target, htarget, huses⟩
  · rintro (⟨source, target, input, wire, hshown⟩ | ⟨gate, hgate, huses⟩)
    · have htarget := hshown.1.2.1
      exact ⟨target, htarget,
        (h.mem_arrowsOf htarget arrow).2 (Or.inl ⟨source, input, wire, hshown⟩)⟩
    · exact ⟨gate, hgate, (h.mem_arrowsOf hgate arrow).2 (Or.inr huses)⟩

/-- The edges to one gate differ. -/
theorem nodup_arrowsOf (target : Gate) :
    ((ofNetlist n).arrowsOf (Box.ofGate n target)).Nodup := by
  have hsublist := sublist_drawnEdges (d := ofNetlist n) (Box.ofGate n target)
  refine List.nodup_append.2 ⟨?_, ?_, ?_⟩
  · refine ((h.nodup_edgesOf target).sublist hsublist).map_on fun edge hedge other hother heq => ?_
    obtain ⟨hsource, -, hinput, -⟩ := Arrow.connection.inj heq
    exact eq_of_mem_edgesOf (hsublist.subset hedge) (hsublist.subset hother) hsource hinput
  · split
    · exact List.nodup_singleton _
    · exact List.nodup_nil
  · intro connection hconnection uses huses heq
    obtain ⟨edge, -, rfl⟩ := List.mem_map.1 hconnection
    split at huses
    · exact absurd (heq.trans (List.mem_singleton.1 huses)) nofun
    · exact absurd huses List.not_mem_nil

theorem nodup_arrows : (ofNetlist n).arrows.Nodup := by
  refine List.nodup_flatMap.2 ⟨fun box hbox => ?_, ?_⟩
  · obtain ⟨target, -, rfl⟩ := List.mem_map.1 (mem_boxesByCluster.1 hbox)
    exact h.nodup_arrowsOf target
  · refine (nodup_boxesByCluster h.nodup_boxes).imp_of_mem
      fun hbox hbox' hne arrow harrow harrow' => hne ?_
    obtain ⟨target, htarget, rfl⟩ := List.mem_map.1 (mem_boxesByCluster.1 hbox)
    obtain ⟨target', htarget', rfl⟩ := List.mem_map.1 (mem_boxesByCluster.1 hbox')
    have hid : target.id = target'.id :=
      (owner_of_mem_arrowsOf harrow).symm.trans (owner_of_mem_arrowsOf harrow')
    rw [h.eq_of_id_eq htarget htarget' hid]

end Netlist.Drawable

end Gatework
