import Gatework.Proofs.Diagram.Clusters
import Gatework.Proofs.Expansion.CallTree
import Gatework.Proofs.Expansion.WellFormed

/-!
# Diagrams are complete and exact

A diagram shows every gate, context and connection of its netlist, each of them once and in
its place, and shows nothing else.

There are two groups.

* The netlist of a description is one that can be drawn.
* The text of a diagram is that of a graph, which depicts the netlist (`diagram_depicts`).
-/

namespace Gatework

namespace Diagram

/-- The graph of a diagram: what stands in the root, and the edges. -/
def graph (d : Diagram) : Graph := ⟨d.items (d.netlist.contexts.length + 1) .root, d.arrows⟩

theorem text_eq (d : Diagram) : d.text = d.graph.text := by
  unfold Diagram.text Graph.text graph
  rw [clusterLines_eq, join_map_edgeLines]

end Diagram

namespace Netlist

open Diagram

variable {n : Netlist}

/-! ## Netlists of descriptions -/

/-- A parent has a smaller number than the contexts inside it. -/
theorem Recorded.lt_of_parentLink {limit : UInt64} (h : n.Recorded limit) {id parent : ContextId}
    (hlink : n.ParentLink id parent) : parent < id := by
  obtain ⟨context, hcontext, rfl, rfl, -⟩ := hlink
  obtain ⟨front, back, heq⟩ := List.append_of_mem hcontext
  rcases (h.called front context back heq).caller with ⟨-, hroot⟩ | ⟨parent, hparent, hid, -⟩
  · rw [hroot]
    refine UInt32.lt_iff_toNat_lt.2 (Nat.pos_of_ne_zero fun hzero => h.id_ne_root hcontext ?_)
    exact congrArg ContextId.mk (UInt32.toNat_inj.1 hzero)
  · have hsorted := h.sorted
    rw [heq, List.pairwise_append] at hsorted
    exact hid ▸ hsorted.2.2 parent hparent context List.mem_cons_self

/-- So parent links do not go round. -/
theorem Recorded.not_transGen_parentLink {limit : UInt64} (h : n.Recorded limit) (id : ContextId) :
    ¬Relation.TransGen n.ParentLink id id := by
  have hbelow {id parent : ContextId} (hup : Relation.TransGen n.ParentLink id parent) :
      parent < id := by
    induction hup with
    | single hlink => exact h.lt_of_parentLink hlink
    | tail _ hlink ih => exact IsTrans.trans _ _ _ (h.lt_of_parentLink hlink) ih
  exact fun hround => UInt32.lt_irrefl _ (hbelow hround)

/-- With fewer gates and invocations than numbers, the netlist of a description can be
drawn. -/
theorem drawable_of_ofForest {limit : UInt64} {nodes : List Node}
    (h : ofForest limit nodes = .ok n) (hgates : n.gates.length < UInt32.size)
    (hcontexts : n.contexts.length < UInt32.size) : n.Drawable := by
  obtain ⟨outputs, d, hd, rfl⟩ := eq_linkContexts_of_ofForest h
  have hreaches := (Draft.leads_ofForest (Node.allIn_true nodes) hd).reaches
  have hlength := congrArg List.length (map_id_linkContexts { d.netlist with outputs })
  rw [List.length_map, List.length_map] at hlength
  have hgates' : d.gates.length < UInt32.size := List.length_reverse ▸ hgates
  have hcontexts' : d.contexts.length < UInt32.size :=
    List.length_reverse ▸ (hlength ▸ hcontexts)
  have hrecorded := (recorded_of_reaches hreaches hcontexts' outputs).linkContexts
  refine ⟨?_, hrecorded.nodup, fun _ => hrecorded.id_ne_root, hrecorded.not_transGen_parentLink⟩
  have hnumbers : ((d.gates.map Gate.id).map fun id => id.number.toNat).Nodup := by
    rw [List.map_map]
    show (d.gates.map fun gate => gate.id.number.toNat).Nodup
    rw [(hreaches.gatesNumbered hgates').numbers, List.nodup_reverse]
    exact List.nodup_range'
  show (d.gates.reverse.map Gate.id).Nodup
  rw [List.map_reverse, List.nodup_reverse]
  exact hnumbers.of_map _

/-! ## The graph of a diagram -/

/-- A diagram is complete and exact.  It is the text of a graph that shows all that there is
to show of the netlist, and nothing else, if gates and contexts have identifiers of their
own and parent links do not go round.  This holds of the netlist of every description, with
fewer gates and invocations than numbers. -/
theorem diagram_depicts (n : Netlist) :
    (n.Drawable → ∃ graph : Graph, n.diagram = graph.text ∧ graph.Depicts n) ∧
      ∀ limit nodes, ofForest limit nodes = .ok n → n.gates.length < UInt32.size →
        n.contexts.length < UInt32.size → n.Drawable := by
  refine ⟨fun h => ⟨(ofNetlist n).graph, (ofNetlist n).text_eq, ?_⟩,
    fun limit nodes => drawable_of_ofForest⟩
  exact {
    nodup_entries := h.nodup_entriesAll_items _ _
    nodup_arrows := h.nodup_arrows
    mem_entries := fun _ _ => h.mem_entriesAll_root
    mem_arrows := h.mem_arrows }

/-- A source that feeds ten gates, and a block that is invoked inside another one. -/
def spreading : List Node :=
  let pos := Position.start
  let name := Node.identifier pos
  let inverted := Node.negation pos (some (name "on"))
  [.block pos "inner" ["x"] 1 [.returns pos, .negation pos (some (name "x"))],
    .block pos "outer" ["x"] 1 [.returns pos, .invocation pos "inner" [name "x"]],
    .assignment pos ["on"], .literal pos true,
    .group pos (.binary pos .conj (name "on") (some (name "on")) :: List.replicate 8 inverted),
    .invocation pos "outer" [name "on"]]

/-- The source has a stub, and its edges to the conjunction are left out. -/
theorem diagram_depicts_spreading : ∃ n, ofForest 3 spreading = .ok n ∧
    n.gates.map n.fanout = [10, 0, 0, 0, 0, 0, 0, 0, 0, 0, 1, 1, 1, 1, 0] ∧
    n.contexts.map (fun context => context.parent.number) = [0, 1] ∧ n.Drawable ∧
    ∃ graph : Graph, n.diagram = graph.text ∧ graph.Depicts n := by
  have hbuilt : (ofForest 3 spreading).toOption.map (fun n =>
      (n.gates.map n.fanout, n.contexts.map fun context => context.parent.number)) =
        some ([10, 0, 0, 0, 0, 0, 0, 0, 0, 0, 1, 1, 1, 1, 0], [0, 1]) := by
    decide +kernel
  obtain ⟨n, hn, hcounts⟩ := exists_of_toOption_map hbuilt
  obtain ⟨hfanouts, hparents⟩ := Prod.mk.inj hcounts
  have hgates : n.gates.length = 15 := by
    rw [← List.length_map n.fanout, hfanouts]
    rfl
  have hcontexts : n.contexts.length = 2 := by
    rw [← List.length_map (f := fun context : Context => context.parent.number), hparents]
    rfl
  obtain ⟨hdepicts, hdrawable⟩ := diagram_depicts n
  have hn' : n.Drawable :=
    hdrawable 3 spreading hn (by rw [hgates]; decide) (by rw [hcontexts]; decide)
  exact ⟨n, hn, hfanouts, hparents, hn', hdepicts hn'⟩

end Netlist

end Gatework
