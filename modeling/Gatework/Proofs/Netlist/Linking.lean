import Gatework.Netlist
import Mathlib.Data.List.Nodup

/-!
# Linked contexts

What linking makes of a list of contexts, whatever they are: the first context of an
identifier gets the children that name it as their parent, and no other gets any.

There are four groups.

* One adoption, which changes the first context of an identifier, and several ones.
* Linking, in general (`getElem?_linkContexts`) and with an identifier of its own for
  each context (`contexts_linkContexts`).
* With such identifiers, a context is found by its own.
* Contexts of any kind: what children contexts have had does not matter, so they may be
  linked again.  `linkContexts_exact` collects what linking does.
-/

namespace Gatework.Netlist

variable {contexts : List Context}

/-! ## Adoptions -/

/-- Adopting a child keeps the numbers of contexts. -/
theorem map_id_adopt (parent child : ContextId) (contexts : List Context) :
    (adopt parent child contexts).map Context.id = contexts.map Context.id := by
  induction contexts with
  | nil => rfl
  | cons context rest ih =>
    rw [adopt]
    split
    · rfl
    · rw [List.map_cons, ih, List.map_cons]

theorem getElem?_adopt (parent child : ContextId) (contexts : List Context) (place : Nat) :
    (adopt parent child contexts)[place]? = contexts[place]?.map fun context =>
      if context.id = parent ∧ parent ∉ (contexts.take place).map Context.id then
        { context with children := context.children ++ [child] }
      else context := by
  induction contexts generalizing place with
  | nil => rfl
  | cons first rest ih =>
    rw [adopt]
    by_cases hfirst : first.id = parent
    · rw [if_pos hfirst]
      cases place with
      | zero => simp [hfirst]
      | succ place => simp [hfirst]
    · rw [if_neg hfirst]
      cases place with
      | zero => simp [hfirst]
      | succ place => simp [ih, Ne.symm hfirst]

/-- Children are adopted in order. -/
theorem getElem?_foldl_adopt (children contexts : List Context) (place : Nat) :
    (children.foldl (fun all child => adopt child.parent child.id all) contexts)[place]? =
      contexts[place]?.map fun context => { context with
        children := context.children ++
          if context.id ∈ (contexts.take place).map Context.id then []
          else (children.filter fun child => child.parent = context.id).map Context.id } := by
  induction children generalizing contexts with
  | nil => simp
  | cons child rest ih =>
    have htake : ((adopt child.parent child.id contexts).take place).map Context.id =
        (contexts.take place).map Context.id := by
      rw [List.map_take, map_id_adopt, ← List.map_take]
    rw [List.foldl_cons, ih, htake, getElem?_adopt, Option.map_map]
    congr 1
    funext context
    simp only [Function.comp_apply]
    generalize (contexts.take place).map Context.id = earlier
    by_cases hearlier : context.id ∈ earlier
    · have hkept : ¬(context.id = child.parent ∧ child.parent ∉ earlier) :=
        fun hfirst => hfirst.2 (hfirst.1 ▸ hearlier)
      rw [if_neg hkept, if_pos hearlier, if_pos hearlier]
    · by_cases hparent : context.id = child.parent
      · have hfirst : context.id = child.parent ∧ child.parent ∉ earlier :=
          ⟨hparent, hparent ▸ hearlier⟩
        have hfilter : (child :: rest).filter (fun child => child.parent = context.id) =
            child :: rest.filter (fun child => child.parent = context.id) :=
          List.filter_cons_of_pos (by simpa using hparent.symm)
        rw [if_pos hfirst, if_neg hearlier, if_neg hearlier, hfilter, List.map_cons,
          List.append_assoc, List.singleton_append]
      · rw [if_neg fun hfirst => hparent hfirst.1, if_neg hearlier, if_neg hearlier,
          List.filter_cons_of_neg (by simpa using Ne.symm hparent)]

/-! ## Linking -/

/-- The children of a context after linking are the contexts that name it as their parent,
unless it is the root or another of its identifier comes before it. -/
theorem getElem?_linkContexts (n : Netlist) (place : Nat) :
    n.linkContexts.contexts[place]? = n.contexts[place]?.map fun context => { context with
      children :=
        if context.id = .root ∨ context.id ∈ (n.contexts.take place).map Context.id then []
        else (n.contexts.filter fun child => child.parent = context.id).map Context.id } := by
  have hids : ((n.contexts.map fun context => { context with children := [] }).take place).map
      Context.id = (n.contexts.take place).map Context.id := by
    rw [← List.map_take, List.map_map]
    rfl
  rw [linkContexts]
  dsimp only
  rw [getElem?_foldl_adopt, hids, List.getElem?_map, Option.map_map]
  congr 1
  funext context
  simp only [Function.comp_apply, List.nil_append, List.filter_filter]
  by_cases hroot : context.id = .root
  · have hnone : n.contexts.filter (fun child =>
        decide (child.parent = context.id) && !child.parent.isRoot) = [] := by
      refine List.filter_eq_nil_iff.2 fun child _ => ?_
      simp [hroot, ContextId.isRoot]
    rw [hnone, List.map_nil, ite_self, if_pos (Or.inl hroot)]
  · have hsame : n.contexts.filter (fun child =>
          decide (child.parent = context.id) && !child.parent.isRoot) =
        n.contexts.filter fun child => child.parent = context.id := by
      refine List.filter_congr fun child _ => ?_
      by_cases hparent : child.parent = context.id
      · simp [hparent, hroot, ContextId.isRoot]
      · simp [hparent]
    rw [hsame]
    simp only [hroot, false_or]

/-- Linking changes nothing but the children of contexts. -/
theorem map_linkContexts {α : Type} {view : Context → α}
    (hview : ∀ context children, view { context with children } = view context) (n : Netlist) :
    n.linkContexts.contexts.map view = n.contexts.map view := by
  refine List.ext_getElem? fun place => ?_
  rw [List.getElem?_map, List.getElem?_map, getElem?_linkContexts, Option.map_map]
  exact Option.map_congr fun context _ => hview context _

theorem map_id_linkContexts (n : Netlist) :
    n.linkContexts.contexts.map Context.id = n.contexts.map Context.id :=
  map_linkContexts (fun _ _ => rfl) n

/-- With identifiers that are not used twice, and not for the root, every context gets the
children that name it as their parent. -/
theorem contexts_linkContexts {n : Netlist} (hnodup : (n.contexts.map Context.id).Nodup)
    (hroot : ∀ context ∈ n.contexts, context.id ≠ .root) :
    n.linkContexts.contexts = n.contexts.map fun context => { context with
      children := (n.contexts.filter fun child => child.parent = context.id).map Context.id } := by
  refine List.ext_getElem? fun place => ?_
  rw [getElem?_linkContexts, List.getElem?_map]
  refine Option.map_congr fun context hcontext => ?_
  have hmem : context ∈ n.contexts := List.mem_of_getElem? hcontext
  rw [← List.take_append_drop place n.contexts, List.map_append, List.nodup_append] at hnodup
  have hlater : context.id ∈ (n.contexts.drop place).map Context.id := by
    refine List.mem_map_of_mem (List.mem_of_getElem? (i := 0) ?_)
    rw [List.getElem?_drop]
    exact hcontext
  have hfirst : context.id ∉ (n.contexts.take place).map Context.id :=
    fun hearlier => hnodup.2.2 _ hearlier _ hlater rfl
  rw [if_neg (not_or.2 ⟨hroot context hmem, hfirst⟩)]

/-! ## Finding a context -/

/-- The context of an identifier is the one that has it. -/
theorem context?_eq_some_iff {n : Netlist} (hnodup : (n.contexts.map Context.id).Nodup)
    {id : ContextId} {context : Context} :
    n.context? id = some context ↔ context ∈ n.contexts ∧ context.id = id := by
  constructor
  · intro hfind
    exact ⟨List.mem_of_find?_eq_some hfind, by simpa using List.find?_some hfind⟩
  · rintro ⟨hcontext, rfl⟩
    cases hfind : n.context? context.id with
    | none => exact absurd (List.find?_eq_none.1 hfind context hcontext) (by simp)
    | some other =>
      have hid : other.id = context.id := by simpa using List.find?_some hfind
      rw [List.inj_on_of_nodup_map hnodup (List.mem_of_find?_eq_some hfind) hcontext hid]

/-! ## Any contexts -/

/-- A context apart from its children. -/
def childless (context : Context) : Context := { context with children := [] }

theorem map_childless_linkContexts (n : Netlist) :
    n.linkContexts.contexts.map childless = n.contexts.map childless :=
  map_linkContexts (fun _ _ => rfl) n

/-- Linking does not look at the children that contexts have had. -/
theorem contexts_linkContexts_congr {n m : Netlist}
    (h : n.contexts.map childless = m.contexts.map childless) :
    n.linkContexts.contexts = m.linkContexts.contexts := by
  have hlinked (n : Netlist) : n.linkContexts.contexts =
      ((n.contexts.map childless).filter fun context => !context.parent.isRoot).foldl
        (fun all child => adopt child.parent child.id all) (n.contexts.map childless) := by
    rw [List.filter_map, List.foldl_map]
    rfl
  rw [hlinked, hlinked, h]

/-- Contexts that are linked stay as they are when they are linked again. -/
theorem linkContexts_linkContexts (n : Netlist) : n.linkContexts.linkContexts = n.linkContexts := by
  have hcontexts := contexts_linkContexts_congr (map_childless_linkContexts n)
  exact congrArg (fun contexts => { n with contexts }) hcontexts

/-- The first context of an identifier is the same one after linking, with the children that
name it as their parent. -/
theorem context?_linkContexts {id : ContextId} (hid : id ≠ .root) (n : Netlist) :
    n.linkContexts.context? id = (n.context? id).map fun context => { context with
      children := (n.contexts.filter fun child => child.parent = id).map Context.id } := by
  cases hfind : n.context? id with
  | none =>
    have hnone : ∀ context ∈ n.contexts, context.id ≠ id := fun context hcontext =>
      by simpa using List.find?_eq_none.1 hfind context hcontext
    refine List.find?_eq_none.2 fun context hcontext => ?_
    have hmem : context.id ∈ n.contexts.map Context.id :=
      map_id_linkContexts n ▸ List.mem_map_of_mem hcontext
    obtain ⟨other, hother, hsame⟩ := List.mem_map.1 hmem
    simpa [hsame] using hnone other hother
  | some context =>
    obtain ⟨hcontext, front, back, hsplit, hfront⟩ := List.find?_eq_some_iff_append.1 hfind
    have hcontext : context.id = id := by simpa using hcontext
    have hearlier : id ∉ front.map Context.id := by
      rw [List.mem_map]
      rintro ⟨other, hother, hsame⟩
      simpa [hsame] using hfront other hother
    have htake : n.contexts.take front.length = front := by rw [hsplit, List.take_left]
    have hplace : n.linkContexts.contexts[front.length]? = some { context with
        children := (n.contexts.filter fun child => child.parent = id).map Context.id } := by
      have hold : n.contexts[front.length]? = some context := by simp [hsplit]
      rw [getElem?_linkContexts, hold, htake, Option.map_some, hcontext,
        if_neg (not_or.2 ⟨hid, hearlier⟩)]
    obtain ⟨hlt, hat⟩ := List.getElem?_eq_some_iff.1 hplace
    have hids : (n.linkContexts.contexts.take front.length).map Context.id =
        front.map Context.id := by
      rw [List.map_take, map_id_linkContexts, ← List.map_take, htake]
    have hlinked := List.take_append_drop front.length n.linkContexts.contexts
    rw [← List.getElem_cons_drop hlt, hat] at hlinked
    refine List.find?_eq_some_iff_append.2 ⟨by simpa using hcontext, _, _, hlinked.symm,
      fun other hother => ?_⟩
    have hother : other.id ∈ front.map Context.id := hids ▸ List.mem_map_of_mem hother
    have hne : other.id ≠ id := fun hsame => hearlier (hsame ▸ hother)
    simpa using hne

/-- Whatever the contexts are, the first context of an identifier other than that of the root
gets all contexts that name it as their parent for its children, in their order.  Contexts of
the root's identifier and further ones of an identifier are left without any.  Nothing else
changes, and linking once more changes nothing at all. -/
theorem linkContexts_exact (n : Netlist) :
    (∀ id, id ≠ .root → n.linkContexts.context? id = (n.context? id).map fun context =>
        { context with
          children := (n.contexts.filter fun child => child.parent = id).map Context.id }) ∧
      (∀ front context back, n.linkContexts.contexts = front ++ context :: back →
        context.id = .root ∨ context.id ∈ front.map Context.id → context.children = []) ∧
      n.linkContexts.contexts.map childless = n.contexts.map childless ∧
      n.linkContexts.wires = n.wires ∧ n.linkContexts.gates = n.gates ∧
      n.linkContexts.outputs = n.outputs ∧
      n.linkContexts.linkContexts = n.linkContexts := by
  refine ⟨fun id hid => context?_linkContexts hid n, fun front context back hsplit hlate => ?_,
    map_childless_linkContexts n, rfl, rfl, rfl, linkContexts_linkContexts n⟩
  have hplace : n.linkContexts.contexts[front.length]? = some context := by simp [hsplit]
  have hids : (n.contexts.take front.length).map Context.id = front.map Context.id := by
    rw [List.map_take, ← map_id_linkContexts, ← List.map_take, hsplit, List.take_left]
  rw [getElem?_linkContexts, Option.map_eq_some_iff] at hplace
  obtain ⟨old, -, rfl⟩ := hplace
  rw [← hids] at hlate
  exact if_pos hlate

/-- Contexts that are their own parents and each other's, that share an identifier, or name a
parent that is not there, with children left over from elsewhere. -/
def tangled : Netlist :=
  { empty with contexts := [⟨⟨3⟩, "f", 1, ⟨3⟩, [⟨9⟩]⟩, ⟨⟨2⟩, "g", 1, ⟨5⟩, []⟩,
      ⟨⟨5⟩, "h", 2, ⟨2⟩, [⟨7⟩]⟩, ⟨⟨3⟩, "f", 4, .root, [⟨1⟩]⟩, ⟨.root, "", 0, ⟨8⟩, [⟨4⟩]⟩,
      ⟨⟨5⟩, "h", 9, ⟨3⟩, []⟩, ⟨⟨2⟩, "g", 0, ⟨3⟩, [⟨2⟩]⟩, ⟨⟨5⟩, "", 1, ⟨3⟩, [⟨3⟩]⟩] }

theorem linkContexts_exact_tangled :
    tangled.linkContexts.context? ⟨3⟩ =
        some ⟨⟨3⟩, "f", 1, ⟨3⟩, [⟨3⟩, ⟨5⟩, ⟨2⟩, ⟨5⟩]⟩ ∧
      tangled.linkContexts.context? ⟨8⟩ = none ∧
      (∃ front context back, tangled.linkContexts.contexts = front ++ context :: back ∧
        context.id ∈ front.map Context.id ∧ context.children = []) ∧
      tangled.linkContexts.linkContexts = tangled.linkContexts := by
  obtain ⟨hfirst, hlater, -, -, -, -, hagain⟩ := linkContexts_exact tangled
  have hsplit : tangled.linkContexts.contexts = tangled.linkContexts.contexts.take 5 ++
      ⟨⟨5⟩, "h", 9, ⟨3⟩, []⟩ :: tangled.linkContexts.contexts.drop 6 := by decide
  have hmem : (⟨5⟩ : ContextId) ∈
      (tangled.linkContexts.contexts.take 5).map Context.id := by decide
  exact ⟨(hfirst ⟨3⟩ (by decide)).trans (by decide), (hfirst ⟨8⟩ (by decide)).trans (by decide),
    ⟨_, _, _, hsplit, hmem, hlater _ _ _ hsplit (Or.inr hmem)⟩, hagain⟩

end Gatework.Netlist
