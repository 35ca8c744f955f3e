import LocalScope.Proofs.Relabeling

namespace LocalScope

variable {α : Type}

namespace Slot

def shape : Slot α → Slot Unit
  | one _ => .one ()
  | optional child => .optional (child.map fun _ => ())
  | many children => .many (children.map fun _ => ())

theorem length_children_shape (s : Slot α) : s.shape.children.length = s.children.length := by
  cases s with
  | one child => rfl
  | optional child => cases child <;> rfl
  | many children => exact List.length_map _

theorem ext_children {s s' : Slot α} (shape : s.shape = s'.shape) (same : s.children = s'.children) :
    s = s' := by
  cases s with
  | one child => cases s' with
    | one child' => rw [List.head_eq_of_cons_eq same]
    | _ => cases shape
  | optional child => cases s' with
    | optional child' => cases child <;> cases child' <;> simp_all [children]
    | _ => cases shape
  | many children => cases s' with
    | many children' => exact congrArg many same
    | _ => cases shape

/- The shapes tell how many children belong to which slot. -/
theorem all_ext_children {ss ss' : List (Slot α)} (shapes : ss.map shape = ss'.map shape)
    (same : ss.flatMap children = ss'.flatMap children) : ss = ss' := by
  induction ss generalizing ss' with
  | nil => exact (List.map_eq_nil_iff.mp shapes.symm).symm
  | cons s ss ih =>
    obtain ⟨s', rest, rfl, first, later⟩ := List.map_eq_cons_iff.mp shapes.symm
    have count : s.children.length = s'.children.length := by
      rw [← length_children_shape s, ← length_children_shape s', first]
    obtain ⟨here, below⟩ := List.append_inj same count
    rw [ext_children first.symm here, ih later.symm below]

end Slot

namespace Kind

variable {k k' : Kind α}

theorem ext_slots (shape : (k.map fun _ => ()) = k'.map fun _ => ()) (same : k.slots = k'.slots) :
    k = k' := by
  cases k <;> cases k' <;> first | cases shape; done | simp_all [map, slots]

/-- A kind is what it is like without its children, together with the children in order. -/
theorem ext_children (shape : (k.map fun _ => ()) = k'.map fun _ => ())
    (same : k.children = k'.children) : k = k' := by
  have shapes (k : Kind α) : (k.map fun _ => ()).slots = k.slots.map Slot.shape := by
    cases k <;> rfl
  refine ext_slots shape (Slot.all_ext_children ?_ same)
  rw [← shapes, ← shapes, shape]

end Kind

namespace Term

variable {ℓ ℓ' : Type} (f : ℓ → ℓ') (name : String) (t : Term ℓ)

theorem receivers_relabel : (t.relabel f).receivers = t.receivers.map (relabel f) := by
  have holds (c : Term ℓ) : (c.relabel f).kind.holdsBlocks = c.kind.holdsBlocks := by
    rw [kind_relabel]
    cases c.kind <;> rfl
  rw [receivers, receivers, children_relabel, List.flatMap_map, List.map_flatMap]
  refine List.flatMap_congr fun part child => ?_
  rw [isBlock_relabel, holds]
  split
  · rfl
  · split
    · rw [children_relabel, List.filter_map]
      simp only [Function.comp_def, isBlock_relabel]
    · rfl

theorem entries_relabel : (t.relabel f).entries = t.entries.map (relabel f) := by
  rw [entries, entries, List.map_append, onlyInit?_relabel, kind_relabel, Kind.statements_map,
    Option.toList_map]

end Term

def Label.renumber (f : NodeId → NodeId) (l : Label) : Label := { l with id := f l.id }

def Site.renumber (f : NodeId → NodeId) : Site → Site
  | .before anchor => .before (f anchor)
  | .inPlaceOf assignment => .inPlaceOf (f assignment)

def Edit.renumber (f : NodeId → NodeId) (e : Edit) : Edit := { e with site := e.site.renumber f }

namespace Tree

/-- A tree under another numbering. -/
def renumber (f : NodeId → NodeId) (t : Tree) : Tree := t.relabel (Label.renumber f)

variable (f : NodeId → NodeId) {t u u' : Tree}

@[simp] theorem id_renumber (t : Tree) : (t.renumber f).id = f t.id := by
  obtain ⟨l, k⟩ := t
  rw [renumber, Term.relabel_node]
  rfl

theorem note_renumber (t : Tree) : (t.renumber f).label.note = t.label.note := by
  obtain ⟨l, k⟩ := t
  rw [renumber, Term.relabel_node]
  rfl

theorem ids_renumber (t : Tree) : (t.renumber f).ids = t.ids.map f := by
  rw [ids, renumber, Term.subterms_relabel, ids, List.map_map, List.map_map]
  exact List.map_congr_left fun n _ => id_renumber f n

theorem body_renumber (t : Tree) : (t.renumber f).body = t.body := by
  induction t using Term.inductChildren with
  | step l k ih =>
    rw [renumber, Term.relabel_node, body_node, body_node, Kind.map_map]
    exact congrArg _ (Kind.map_congr k ih)

theorem kind_renumber (t : Tree) : (t.renumber f).kind = t.kind.map (renumber f) :=
  Term.kind_relabel _ t

theorem statements_renumber (t : Tree) : (t.renumber f).statements = t.statements.map (renumber f) := by
  rw [statements, kind_renumber, Kind.statements_map]
  rfl

theorem assignment?_renumber (t : Tree) : (t.renumber f).assignment? = t.assignment?.map (renumber f) :=
  Term.assignment?_relabel _ t

theorem assigns_renumber {s r x v : Tree} {op : AssignOp} (found : s.assignment? = some r)
    (shape : r.kind = .assignment op x v) :
    (s.renumber f).assignment? = some (r.renumber f) ∧
      (r.renumber f).kind = .assignment op (x.renumber f) (v.renumber f) := by
  rw [assignment?_renumber, found, kind_renumber, shape]
  exact ⟨rfl, rfl⟩

theorem keptNote_renumber (t : Tree) : (t.renumber f).keptNote = t.keptNote := by
  obtain ⟨l, k⟩ := t
  rw [renumber, Term.relabel_node]
  cases k <;> rfl

theorem length_ids_of_body (same : u.body = u'.body) : u.ids.length = u'.ids.length := by
  rw [ids, ids, List.length_map, List.length_map, ← List.length_map body, ← subterms_body, same,
    subterms_body, List.length_map]

theorem all_eq_renumber {ts ts' : List Tree}
    (each : ∀ t ∈ ts, ∀ t' ∈ ts', t.body = t'.body → t.ids.map f = t'.ids → t' = t.renumber f)
    (bodies : ts.map body = ts'.map body)
    (numbers : (ts.flatMap ids).map f = ts'.flatMap ids) : ts' = ts.map (renumber f) := by
  induction ts generalizing ts' with
  | nil => exact List.map_eq_nil_iff.mp bodies.symm
  | cons t ts ih =>
    obtain ⟨t', rest, rfl, first, later⟩ := List.map_eq_cons_iff.mp bodies.symm
    rw [List.flatMap_cons, List.flatMap_cons, List.map_append] at numbers
    obtain ⟨own, others⟩ := List.append_inj numbers
      (by rw [List.length_map, length_ids_of_body first.symm])
    rw [List.map_cons, ← each t (by simp) t' (by simp) first.symm own,
      ← ih (fun s listed s' listed' => each s (by simp [listed]) s' (by simp [listed']))
        later.symm others]

theorem eq_renumber (same : u.body = u'.body) (shown : ∀ n ∈ u.subterms, n.label.reach = .shown)
    (shown' : ∀ n ∈ u'.subterms, n.label.reach = .shown) (numbers : u.ids.map f = u'.ids) :
    u' = u.renumber f := by
  induction u using Term.inductChildren generalizing u' with
  | step l k ih =>
    obtain ⟨l', k'⟩ := u'
    rw [body_node, body_node, Term.node.injEq] at same
    rw [ids_node, ids_node, List.map_cons, List.cons.injEq] at numbers
    have bodies : k.children.map body = k'.children.map body := by
      rw [← Kind.children_map, ← Kind.children_map, same.2]
    have children : k'.children = k.children.map (renumber f) := by
      refine all_eq_renumber f (fun c child c' child' => ?_) bodies numbers.2
      exact fun same' => ih c child same'
        (fun n inside => shown n (Term.mem_subterms_of_child (t := .node l k) child inside))
        (fun n inside => shown' n (Term.mem_subterms_of_child (t := .node l' k') child' inside))
    have label : l' = l.renumber f := by
      have reach : l.reach = .shown := shown _ (Term.self_mem_subterms _)
      have reach' : l'.reach = .shown := shown' _ (Term.self_mem_subterms _)
      rw [Label.renumber, numbers.1, same.1, reach, ← reach']
    have shape : (k'.map fun _ => ()) = (k.map (renumber f)).map fun _ => () := by
      have alike := congrArg (Kind.map fun _ => ()) same.2
      rw [Kind.map_map, Kind.map_map] at alike
      rw [Kind.map_map, alike]
    rw [renumber, Term.relabel_node, label,
      Kind.ext_children shape (by rw [children, Kind.children_map])]
    rfl

theorem exists_renumber (distinct : u.ids.Nodup) (same : u.body = u'.body)
    (shown : ∀ n ∈ u.subterms, n.label.reach = .shown)
    (shown' : ∀ n ∈ u'.subterms, n.label.reach = .shown) : ∃ f, u' = u.renumber f := by
  have total {xs ys : List NodeId} (once : xs.Nodup) (size : xs.length = ys.length) :
      ∃ f : NodeId → NodeId, xs.map f = ys := by
    induction xs generalizing ys with
    | nil => exact ⟨fun x => x, (List.length_eq_zero_iff.mp size.symm).symm⟩
    | cons x xs ih =>
      obtain ⟨y, ys, rfl⟩ := List.exists_cons_of_length_eq_add_one size.symm
      obtain ⟨f, rest⟩ := ih once.of_cons (Nat.succ.inj size)
      refine ⟨Function.update f x y, ?_⟩
      rw [List.map_cons, Function.update_self, ← rest]
      refine congrArg _ (List.map_congr_left fun z later => Function.update_of_ne ?_ _ _)
      exact fun here => (List.nodup_cons.mp once).1 (here ▸ later)
  obtain ⟨f, numbers⟩ := total distinct (length_ids_of_body same)
  exact ⟨f, eq_renumber f same shown shown' numbers⟩

end Tree

namespace LocalVariable

variable (o : Options) (v : LocalVariable) (f : NodeId → NodeId)

theorem foldInto_renumber (a x : Tree) :
    v.foldInto (a.renumber f) (x.renumber f) = (v.foldInto a x).renumber f := by
  rw [foldInto, Tree.id_renumber, Tree.note_renumber]
  rfl

theorem insertBefore_renumber (s : Tree) :
    v.insertBefore (s.renumber f) = (v.insertBefore s).renumber f := by
  rw [insertBefore, Tree.id_renumber]
  rfl

theorem pointFold?_renumber (s : Tree) :
    v.pointFold? o (s.renumber f) = (v.pointFold? o s).map (Edit.renumber f) := by
  rw [pointFold?, pointFold?, Tree.renumber, Term.absorbable?_relabel]
  split
  · rw [Option.map_map, Option.map_map]
    exact Option.map_congr fun pair _ => v.foldInto_renumber f pair.1 pair.2
  · rfl

theorem headerFold?_renumber (s : Tree) :
    v.headerFold? o (s.renumber f) = (v.headerFold? o s).map (Edit.renumber f) := by
  rw [headerFold?, headerFold?, Tree.renumber, Term.absorbableHeader?_relabel]
  split
  · rw [Option.map_map, Option.map_map]
    exact Option.map_congr fun pair _ => v.foldInto_renumber f pair.1 pair.2
  · rfl

theorem declareAt_renumber (s : Tree) :
    v.declareAt o (s.renumber f) = (v.declareAt o s).renumber f := by
  rw [declareAt, declareAt, pointFold?_renumber, insertBefore_renumber]
  cases v.pointFold? o s <;> rfl

theorem spread_renumber (block : Tree) :
    v.spread o (block.renumber f) = (v.spread o block).map (Edit.renumber f) := by
  induction block using Term.inductSmaller with
  | step block smaller =>
    have first : (Tree.statements (Tree.renumber f block)).find? (Term.uses v.name) =
        ((Tree.statements block).find? (Term.uses v.name)).map (Tree.renumber f) := by
      rw [Tree.statements_renumber, List.find?_map]
      congr 2
      funext s
      exact Tree.uses_of_body (Tree.body_renumber f s) v.name
    have below (s : Tree) (listed : s ∈ Tree.statements block) :
        v.spreadOver o (s.renumber f) = (v.spreadOver o s).map (Edit.renumber f) := by
      rw [spreadOver, spreadOver, headerFold?_renumber]
      cases v.headerFold? o s with
      | some e => rfl
      | none =>
        have inner (r : Tree) (received : r ∈ s.receivers) :
            v.spread o (r.renumber f) = (v.spread o r).map (Edit.renumber f) :=
          smaller r ((Term.size_receiver_lt received).trans
            (Term.size_lt_of_mem_children (Term.statement_mem_children listed)))
        rw [Option.map_none, Tree.renumber, Term.receivers_relabel, List.flatMap_map, List.map_flatMap]
        exact List.flatMap_congr inner
    rw [spread_eq, spread_eq, first, v.moves_of_body o (Tree.body_renumber f block)]
    cases (Tree.statements block).find? (Term.uses v.name) with
    | none => rfl
    | some point =>
      simp only [Option.map_some]
      split
      · rw [Tree.statements_renumber, List.flatMap_map, List.map_flatMap]
        exact List.flatMap_congr below
      · rw [declareAt_renumber]
        rfl

end LocalVariable

end LocalScope
