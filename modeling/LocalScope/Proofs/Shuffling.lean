import LocalScope.Proofs.Marking
import LocalScope.Proofs.Renumbering
import LocalScope.Proofs.Settling

namespace LocalScope

/-- A list in another order, in which all that has one name keeps its order. -/
structure Shuffled {α : Type} (name : α → String) (xs ys : List α) : Prop where
  perm : xs.Perm ys
  order : ∀ n, (xs.filter fun x => name x = n) = ys.filter fun y => name y = n

namespace Shuffled

variable {α β : Type} {name : α → String} {name' : β → String} {xs ys xs' ys' : List α}

theorem refl (xs : List α) : Shuffled name xs xs := ⟨.refl xs, fun _ => rfl⟩

theorem append (first : Shuffled name xs ys) (second : Shuffled name xs' ys') :
    Shuffled name (xs ++ xs') (ys ++ ys') where
  perm := first.perm.append second.perm
  order n := by rw [List.filter_append, List.filter_append, first.order, second.order]

theorem of_nodup (perm : xs.Perm ys) (once : (xs.map name).Nodup) : Shuffled name xs ys where
  perm := perm
  order n := by
    induction perm with
    | nil => rfl
    | cons x _ ih => rw [List.filter_cons, List.filter_cons, ih once.of_cons]
    | swap x y zs =>
      have differ : name y ≠ name x := by
        intro same
        simp [same] at once
      by_cases here : name x = n
      · have other : name y ≠ n := here ▸ differ
        simp [here, other]
      · simp [List.filter_cons, here]
    | trans first _ ih ih' => rw [ih once, ih' ((first.map name).nodup_iff.mp once)]

theorem flatMap (shuffled : Shuffled name xs ys) {g : α → List β}
    (named : ∀ x ∈ xs, ∀ y ∈ g x, name' y = name x) :
    Shuffled name' (xs.flatMap g) (ys.flatMap g) where
  perm := shuffled.perm.flatMap_right g
  order n := by
    have sorted {zs : List α} (named : ∀ x ∈ zs, ∀ y ∈ g x, name' y = name x) :
        ((zs.flatMap g).filter fun y => name' y = n) =
          (zs.filter fun x => name x = n).flatMap g := by
      induction zs with
      | nil => rfl
      | cons z zs ih =>
        have later := ih fun x listed => named x (List.mem_cons_of_mem z listed)
        rw [List.flatMap_cons, List.filter_append, later]
        by_cases here : name z = n
        · have all : ((g z).filter fun y => name' y = n) = g z :=
            List.filter_eq_self.mpr fun y inside => by simp [named z (by simp) y inside, here]
          rw [all, List.filter_cons_of_pos (by simp [here]), List.flatMap_cons]
        · have none : ((g z).filter fun y => name' y = n) = [] :=
            List.filter_eq_nil_iff.mpr fun y inside => by simp [named z (by simp) y inside, here]
          rw [none, List.filter_cons_of_neg (by simp [here]), List.nil_append]
    rw [sorted named, sorted fun y listed => named y (shuffled.perm.mem_iff.mpr listed), shuffled.order]

theorem find?_eq (shuffled : Shuffled name xs ys) {test : α → Bool} {n : String}
    (named : ∀ x ∈ xs, test x = true → name x = n) : xs.find? test = ys.find? test := by
  have sorted {zs : List α} (named : ∀ x ∈ zs, test x = true → name x = n) :
      zs.find? test = (zs.filter fun x => name x = n).find? test := by
    rw [List.find?_filter]
    refine List.find?_congr fun z listed => ?_
    cases here : test z with
    | false => simp
    | true => simp [named z listed here]
  rw [sorted named, sorted fun y listed => named y (shuffled.perm.mem_iff.mpr listed), shuffled.order]

end Shuffled

mutual

/-- The same code, but for the order of declarations without a value that stand one right after the
other. -/
inductive Reordered : Body → Body → Prop
  | block {note : Annotation} {ss ss' : List Body} (statements : ReorderedAll ss ss') :
      Reordered (.node note (.block ss)) (.node note (.block ss'))
  | other {note : Annotation} (k : Kind (Body × Body)) (noBlock : k.isBlock = false)
      (parts : ∀ part ∈ k.children, Reordered part.1 part.2) :
      Reordered (.node note (k.map Prod.fst)) (.node note (k.map Prod.snd))

inductive ReorderedAll : List Body → List Body → Prop
  | nil : ReorderedAll [] []
  | run {ds ds' ss ss' : List Body} (uninitialized : ∀ d ∈ ds, (Body.local? d).isSome = true)
      (perm : ds.Perm ds') (rest : ReorderedAll ss ss') : ReorderedAll (ds ++ ss) (ds' ++ ss')
  | kept {s s' : Body} {ss ss' : List Body} (same : Reordered s s') (rest : ReorderedAll ss ss') :
      ReorderedAll (s :: ss) (s' :: ss')

end

namespace Reordered

theorem withNote {t t' : Tree} (same : Reordered t.body t'.body) (note : Annotation) :
    Reordered (t.withNote note).body (t'.withNote note).body := by
  have relabeled (l : Label) (k : Kind Tree) :
      (Tree.withNote note (.node l k)).body = .node note (k.map Tree.body) :=
    Tree.body_node { l with note } k
  obtain ⟨l, k⟩ := t
  obtain ⟨l', k'⟩ := t'
  rw [relabeled, relabeled]
  rw [Tree.body_node, Tree.body_node] at same
  generalize k.map Tree.body = contents, k'.map Tree.body = contents' at same
  generalize l.note = old, l'.note = old' at same
  cases same with
  | block statements => exact .block statements
  | other k noBlock parts => exact .other k noBlock parts

theorem declaring {value value' : Body} (outer inner : Annotation) (ty : Ty) (name : String)
    (isFinal : Bool) (same : Reordered value value') :
    Reordered (.declaring outer inner ty name (some value) isFinal)
      (.declaring outer inner ty name (some value') isFinal) := by
  refine .other (.declaration ty [(.node inner (.binding name (some value)),
    .node inner (.binding name (some value')))] isFinal) rfl fun part listed => ?_
  obtain rfl := List.mem_singleton.mp listed
  refine .other (.binding name (some (value, value'))) rfl fun part listed => ?_
  obtain rfl := List.mem_singleton.mp listed
  exact same

theorem map {l l' : Label} {k : Kind Tree} {g g' : Tree → Tree} (notes : l.note = l'.note)
    (noBlock : k.isBlock = false) (parts : ∀ c ∈ k.children, Reordered (g c).body (g' c).body) :
    Reordered (Tree.body (.node l (k.map g))) (Tree.body (.node l' (k.map g'))) := by
  have pairs := @Reordered.other l.note (k.map fun c => ((g c).body, (g' c).body))
    (by rw [Kind.isBlock_map, noBlock]) (by
      intro pair listed
      rw [Kind.children_map] at listed
      obtain ⟨c, child, rfl⟩ := List.mem_map.mp listed
      exact parts c child)
  rw [Kind.map_map, Kind.map_map] at pairs
  rw [Tree.body_node, Tree.body_node, Kind.map_map, Kind.map_map, ← notes]
  exact pairs

end Reordered

theorem Patch.body_folded (p : Patch) (note : Annotation) (memberId : Option MemberId) (value : Tree) :
    (p.folded note memberId value).body = .declaring note {} p.edit.ty p.edit.name
      (some (value.withNote ⟨p.edit.variableId, memberId⟩).body) p.isFinal := by
  simp only [folded, declares, Tree.body_node, Kind.map, List.map_cons, List.map_nil, Option.map_some]
  rfl

theorem ReorderedAll.rebuildAll {ps ps' : List Patch} {f : NodeId → NodeId} {ss : List Tree}
    (inserted : ∀ s ∈ ss, ((Tree.insertions ps s.id).map Tree.body).Perm
      ((Tree.insertions ps' (f s.id)).map Tree.body))
    (each : ∀ s ∈ ss, Reordered (Tree.rebuild ps s).body (Tree.rebuild ps' (s.renumber f)).body) :
    ReorderedAll ((Tree.rebuildAll ps ss).map Tree.body)
      ((Tree.rebuildAll ps' (ss.map (Tree.renumber f))).map Tree.body) := by
  induction ss with
  | nil => exact .nil
  | cons s ss ih =>
    have rest := ih (fun r later => inserted r (List.mem_cons_of_mem s later))
      (fun r later => each r (List.mem_cons_of_mem s later))
    rw [List.map_cons, Tree.rebuildAll_cons, Tree.rebuildAll_cons, List.map_append, List.map_append,
      List.map_cons, List.map_cons, Tree.id_renumber]
    refine .run (fun d listed => ?_) (inserted s (by simp)) (.kept (each s (by simp)) rest)
    rw [Tree.insertions, List.map_map] at listed
    obtain ⟨p, -, rfl⟩ := List.mem_map.mp listed
    rfl

namespace Edit

variable {es : List Edit} {seen : List Site}

theorem find?_effective {x : NodeId} (unseen : .inPlaceOf x ∉ seen) :
    ((effective seen es).find? fun e => e.site = .inPlaceOf x) =
      es.find? fun e => e.site = .inPlaceOf x := by
  fun_induction effective seen es with
  | case1 => rfl
  | case2 seen first rest chosen ih =>
    rw [List.find?_cons, List.find?_cons]
    by_cases here : first.site = .inPlaceOf x
    · simp [here]
    · have fresh : Site.inPlaceOf x ∉ seen ++ [first.site] := by
        simp [unseen, Ne.symm here]
      simp [here, ih fresh]
  | case3 seen first rest passed ih =>
    have elsewhere : first.site ≠ .inPlaceOf x := by
      intro here
      exact passed ⟨by rw [isInsertion, here], here ▸ unseen⟩
    rw [List.find?_cons_of_neg (by simpa using elsewhere), ih unseen]

theorem find?_carriedOut (es : List Edit) (x : NodeId) :
    ((carriedOut es).find? fun e => e.site = .inPlaceOf x) =
      es.find? fun e => e.site = .inPlaceOf x := by
  have none : ((es.filter isInsertion).find? fun e => e.site = .inPlaceOf x) = none := by
    refine List.find?_eq_none.mpr fun e listed => ?_
    have insertion := (List.mem_filter.mp listed).2
    rw [isInsertion] at insertion
    split at insertion
    · rename_i site
      simp [site]
    · cases insertion
  rw [carriedOut, List.find?_append, none, Option.none_or, find?_effective (by simp)]

theorem mem_sites_effective {site : Site} :
    site ∈ (effective [] es).map Edit.site ↔ ∃ e ∈ es, e.isInsertion = false ∧ e.site = site := by
  constructor
  · intro listed
    obtain ⟨e, among, rfl⟩ := List.mem_map.mp listed
    exact ⟨e, (mem_effective among).1, (mem_effective among).2, rfl⟩
  · rintro ⟨e, planned, folding, rfl⟩
    obtain none | ⟨e', among, same⟩ := @effective_covers [] es e planned folding
    · cases none
    · exact List.mem_map.mpr ⟨e', among, same⟩

theorem isInsertion_renumber (f : NodeId → NodeId) (e : Edit) :
    (e.renumber f).isInsertion = e.isInsertion := by
  obtain ⟨ty, name, variableId, site⟩ := e
  cases site <;> rfl

end Edit

theorem Tree.plan_name_at {o : Options} {t : Tree} (sound : t.Sound) (distinct : t.ids.Nodup)
    (x : NodeId) : ∃ n, ∀ e ∈ t.plan o, e.site = .inPlaceOf x → e.name = n := by
  by_cases planned : ∃ e ∈ t.plan o, e.site = .inPlaceOf x
  · obtain ⟨e, planned, site⟩ := planned
    refine ⟨e.name, fun e' planned' site' => ?_⟩
    exact (plan_fits sound planned).name_eq (distinct.sublist (ids_strip t)) (plan_fits sound planned')
      (by rw [Edit.isInsertion, site]) (site'.trans site.symm)
  · exact ⟨"", fun e planned' site => absurd ⟨e, planned', site⟩ planned⟩

namespace Editing

/-- Two trees that are the same code once they are stripped, and that need the same edits, those for
each name in the same order. -/
structure Matched (o : Options) (f : NodeId → NodeId) (t t' : Tree) : Prop where
  sound : t.Sound
  sound' : t'.Sound
  distinct : t.ids.Nodup
  distinct' : t'.ids.Nodup
  left : Term.strip t' = Tree.renumber f (Term.strip t)
  plan : Shuffled Edit.name ((t.plan o).map (Edit.renumber f)) (t'.plan o)

theorem Placed.folding?_edit {o : Options} {t : Tree} {a c : Arena} {ps : List Patch} {stats : Stats}
    (placed : Placed o t a ps stats c) (x : NodeId) :
    (Tree.folding? ps x).map Patch.edit = (t.plan o).find? fun e => e.site = .inPlaceOf x := by
  rw [← Edit.find?_carriedOut, ← placed.edits, List.find?_map]
  rfl

namespace Matched

variable {o : Options} {f : NodeId → NodeId} {t t' : Tree} {a c a' c' : Arena} {ps ps' : List Patch}
  {stats stats' : Stats}

theorem mem_left (matched : Matched o f t t') {n : Tree} (member : n ∈ (Term.strip t).subterms) :
    n.renumber f ∈ (Term.strip t').subterms := by
  rw [matched.left, Tree.renumber, Term.subterms_relabel]
  exact List.mem_map_of_mem member

theorem site_iff (matched : Matched o f t t') {e : Edit} (planned : e ∈ t.plan o) {s : Site}
    (inside : s.node ∈ Tree.ids (Term.strip t)) : (e.renumber f).site = s.renumber f ↔ e.site = s := by
  have known := (Tree.plan_fits matched.sound planned).node_mem_ids
  have once : ((Tree.ids (Term.strip t)).map f).Nodup := by
    rw [← Tree.ids_renumber, ← matched.left]
    exact matched.distinct'.sublist (Tree.ids_strip t')
  have injective (same : f e.site.node = f s.node) : e.site.node = s.node :=
    List.inj_on_of_nodup_map once known inside same
  constructor
  · intro same
    rw [Edit.renumber] at same
    cases here : e.site <;> cases s <;> simp_all [Site.renumber, Site.node]
  · rintro rfl
    rfl

theorem insertions_perm (matched : Matched o f t t') (placed : Placed o t a ps stats c)
    (placed' : Placed o t' a' ps' stats' c') {n s : Tree} (member : n ∈ (Term.strip t).subterms)
    (listed : s ∈ n.statements) :
    ((Tree.insertions ps s.id).map Tree.body).Perm
      ((Tree.insertions ps' (f s.id)).map Tree.body) := by
  have listed' : s.renumber f ∈ (n.renumber f).statements := by
    rw [Tree.statements_renumber]
    exact List.mem_map_of_mem listed
  have inside : s.id ∈ Tree.ids (Term.strip t) := Tree.ids_subset
    (Term.subterms_trans (Term.child_mem_subterms (Term.statement_mem_children listed)) member)
    (Tree.id_mem_ids s)
  have planned' := placed'.body_planned (matched.mem_left member) listed'
  rw [Tree.id_renumber] at planned'
  have here : ((t.plan o).filter fun e => (e.renumber f).site = .before (f s.id)) =
      (t.plan o).filter fun e => e.site = .before s.id :=
    List.filter_congr fun e planned =>
      decide_eq_decide.mpr (matched.site_iff planned (s := .before s.id) inside)
  have same (e : Edit) : (e.renumber f).declaration o (n.renumber f) = e.declaration o n := by
    rw [Edit.declaration, Tree.writeCount_of_body (Tree.body_renumber f n)]
    rfl
  rw [placed.body_planned member listed, planned', ← here]
  have sorted := (matched.plan.perm.filter fun e => e.site = .before (f s.id)).map
    (Edit.declaration o (n.renumber f))
  rw [List.filter_map, List.map_map] at sorted
  simpa only [Function.comp_def, same] using sorted

/- Which of the foldings at one place is carried out hangs on their order, and all have one name. -/
theorem folding_edit (matched : Matched o f t t') (placed : Placed o t a ps stats c)
    (placed' : Placed o t' a' ps' stats' c') {x : NodeId} (inside : x ∈ Tree.ids (Term.strip t)) :
    (Tree.folding? ps' (f x)).map Patch.edit =
      (Tree.folding? ps x).map fun p => p.edit.renumber f := by
  have site {e : Edit} (planned : e ∈ t.plan o) :
      (e.renumber f).site = .inPlaceOf (f x) ↔ e.site = .inPlaceOf x :=
    matched.site_iff planned (s := .inPlaceOf x) inside
  obtain ⟨n, named⟩ := Tree.plan_name_at (o := o) matched.sound matched.distinct x
  have named' : ∀ e ∈ (t.plan o).map (Edit.renumber f),
      decide (e.site = .inPlaceOf (f x)) = true → e.name = n := by
    intro e listed here
    obtain ⟨e, planned, rfl⟩ := List.mem_map.mp listed
    exact named e planned ((site planned).mp (of_decide_eq_true here))
  calc (Tree.folding? ps' (f x)).map Patch.edit
    _ = ((t.plan o).map (Edit.renumber f)).find? fun e => e.site = .inPlaceOf (f x) := by
      rw [placed'.folding?_edit, matched.plan.find?_eq named']
    _ = ((t.plan o).find? fun e => e.site = .inPlaceOf x).map (Edit.renumber f) := by
      rw [List.find?_map]
      exact congrArg _ (List.find?_congr fun e planned => decide_eq_decide.mpr (site planned))
    _ = (Tree.folding? ps x).map fun p => p.edit.renumber f := by
      rw [← placed.folding?_edit, Option.map_map]
      rfl

theorem unfolded (matched : Matched o f t t') (placed : Placed o t a ps stats c)
    (placed' : Placed o t' a' ps' stats' c') {n : Tree} (member : n ∈ (Term.strip t).subterms)
    (unfolded : Tree.foldedBy? ps n = none) : Tree.foldedBy? ps' (n.renumber f) = none := by
  rw [Tree.foldedBy?, Tree.assignment?_renumber]
  cases found : n.assignment? with
  | none => rfl
  | some r =>
    have inside := Term.subterms_trans (Term.assignment?_mem_subterms found) member
    have edits := matched.folding_edit placed placed' (Tree.ids_subset inside (Tree.id_mem_ids r))
    rw [Tree.foldedBy?, found, Option.bind_some] at unfolded
    rw [unfolded, Option.map_none, Option.map_eq_none_iff] at edits
    rw [Option.map_some, Option.bind_some, Tree.id_renumber, edits]

/- An assignment that one run folds is folded by the other one too, with the same mark: marks tell of
the code as it was before any edit. -/
theorem folded_alike (matched : Matched o f t t') (placed : Placed o t a ps stats c)
    (placed' : Placed o t' a' ps' stats' c') {r x v : Tree} {p : Patch} {op : AssignOp}
    (member : r ∈ (Term.strip t).subterms) (shape : r.kind = .assignment op x v)
    (chosen : Tree.folding? ps r.id = some p) :
    ∃ p', Tree.folding? ps' (f r.id) = some p' ∧ p'.edit = p.edit.renumber f ∧
      p'.isFinal = p.isFinal := by
  obtain ⟨size, -, applied⟩ := placed.applied
  have edits := matched.folding_edit placed placed' (Tree.ids_subset member (Tree.id_mem_ids r))
  rw [chosen, Option.map_some] at edits
  obtain ⟨p', chosen', edit⟩ := Option.map_eq_some_iff.mp edits
  refine ⟨p', chosen', edit, ?_⟩
  obtain ⟨n, holder, s, entry, r', found, same, y, w, plain, -⟩ := applied.folded_entry chosen
  obtain rfl : r' = r := List.inj_on_of_nodup_map applied.distinct
    (Term.subterms_trans (Term.mem_subterms_of_child (Term.entry_mem_children entry)
      (Term.assignment?_mem_subterms found)) holder) member same
  have entry' : Tree.renumber f s ∈ (Tree.renumber f n).entries := by
    rw [Tree.renumber, Tree.renumber, Term.entries_relabel]
    exact List.mem_map_of_mem entry
  obtain ⟨found', plain'⟩ := Tree.assigns_renumber f found plain
  rw [placed.folding_mark_value matched.distinct matched.sound holder entry found chosen plain,
    placed'.folding_mark_value matched.distinct' matched.sound' (matched.mem_left holder) entry' found'
      (by rw [Tree.id_renumber, chosen']) plain',
    Tree.writeCount_of_body (Tree.body_renumber f n), Tree.writeCount_of_body (Tree.body_renumber f w),
    edit]
  rfl

theorem reordered (matched : Matched o f t t') (placed : Placed o t a ps stats c)
    (placed' : Placed o t' a' ps' stats' c') {n : Tree} (member : n ∈ (Term.strip t).subterms) :
    Reordered (Tree.rebuild ps n).body (Tree.rebuild ps' (n.renumber f)).body := by
  induction n using Term.inductSmaller with
  | step n smaller =>
    obtain ⟨l, k⟩ := n
    have below {c : Tree} (child : c ∈ k.children) :
        Reordered (Tree.rebuild ps c).body (Tree.rebuild ps' (c.renumber f)).body :=
      smaller c (Term.size_lt_of_mem_children (t := .node l k) child)
        (Term.subterms_trans (Term.child_mem_subterms (t := .node l k) child) member)
    have whole : Tree.renumber f (.node l k) = .node (l.renumber f) (k.map (Tree.renumber f)) :=
      Term.relabel_node _ l k
    rcases Tree.rebuild_cases ps l k with ⟨ss, rfl, made⟩ | ⟨other, unfolded, made⟩ |
      ⟨p, r, op, x, v, found, shape, folded, made⟩
    · rw [made, whole, Kind.map, Tree.rebuild_block, Tree.body_node, Tree.body_node]
      exact .block (.rebuildAll (fun s listed => matched.insertions_perm placed placed' member listed)
        fun s listed => below (by simpa using listed))
    · have unfolded' := matched.unfolded placed placed' member unfolded
      rw [whole] at unfolded' ⊢
      rw [made, Tree.rebuild_other ps' _ _ (by rw [Kind.isBlock_map, other]) unfolded', Kind.map_map]
      exact .map rfl other fun c child => below child
    · -- What is folded stands for its value, which is further down than a child.
      have inside := Term.subterms_trans (Term.assignment?_mem_subterms found) member
      obtain ⟨p', folded', edit, mark⟩ := matched.folded_alike placed placed' inside shape folded
      obtain ⟨found', shape'⟩ := Tree.assigns_renumber f found shape
      have value := smaller v (Tree.size_value_lt found shape)
        (Term.subterms_trans (Tree.value_mem_subterms found shape) member)
      rw [made, Tree.rebuild_folded ps' found' shape' (by rw [Tree.id_renumber, folded']),
        Tree.keptNote_renumber, Tree.note_renumber, Patch.body_folded, Patch.body_folded, edit, mark]
      exact .declaring _ _ _ _ _ (value.withNote _)

/- Foldings are counted by their places, each of them once, whatever the order. -/
theorem sites_perm (matched : Matched o f t t') :
    ((Edit.effective [] (t.plan o)).map fun e => e.site.renumber f).Perm
      ((Edit.effective [] (t'.plan o)).map Edit.site) := by
  have once : ((Edit.effective [] (t.plan o)).map fun e => e.site.renumber f).Nodup := by
    have sites := (@Edit.effective_nodup [] (t.plan o)).1
    rw [List.nodup_map_iff_inj_on sites.of_map]
    intro e among e' among' same
    refine List.inj_on_of_nodup_map sites among among' ?_
    exact (matched.site_iff (Edit.mem_effective among).1
      (Tree.plan_fits matched.sound (Edit.mem_effective among').1).node_mem_ids).mp same
  refine (List.perm_ext_iff_of_nodup once Edit.effective_nodup.1).mpr fun site => ?_
  rw [← Function.comp_def, ← List.map_map, List.mem_map, Edit.mem_sites_effective]
  constructor
  · rintro ⟨s, listed, rfl⟩
    obtain ⟨e, planned, folding, rfl⟩ := Edit.mem_sites_effective.mp listed
    exact ⟨e.renumber f, matched.plan.perm.mem_iff.mp (List.mem_map_of_mem planned),
      by rw [Edit.isInsertion_renumber, folding], rfl⟩
  · rintro ⟨e, planned, folding, rfl⟩
    obtain ⟨e, planned', rfl⟩ := List.mem_map.mp (matched.plan.perm.mem_iff.mpr planned)
    rw [Edit.isInsertion_renumber] at folding
    exact ⟨e.site, Edit.mem_sites_effective.mpr ⟨e, planned', folding, rfl⟩, rfl⟩

theorem stats_eq (matched : Matched o f t t') (placed : Placed o t a ps stats c)
    (placed' : Placed o t' a' ps' stats' c') : stats' = stats := by
  have count (test : Edit → Bool) (same : ∀ e : Edit, test (e.renumber f) = test e) :
      ((t'.plan o).filter test).length = ((t.plan o).filter test).length := by
    rw [← (matched.plan.perm.filter test).length_eq, List.filter_map, List.length_map]
    simp only [Function.comp_def, same]
  have inserted : stats'.inserted = stats.inserted := by
    rw [placed.inserted, placed'.inserted, count _ (Edit.isInsertion_renumber f)]
  have folded : stats'.folded = stats.folded := by
    have sites := matched.sites_perm.length_eq
    rw [List.length_map, List.length_map] at sites
    rw [placed.folded, placed'.folded, sites]
  have skipped : stats'.folded + stats'.skipped = stats.folded + stats.skipped := by
    rw [placed.skipped, placed'.skipped, count _ fun e => by rw [Edit.isInsertion_renumber]]
  obtain ⟨i, j, k⟩ := stats
  obtain ⟨i', j', k'⟩ := stats'
  simp only [Stats.mk.injEq] at *
  omega

end Matched

end Editing

end LocalScope
