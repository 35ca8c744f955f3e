import LocalScope.Proofs.Rewriting

namespace LocalScope

/-- A node with one of its entries taken out: the statements around a statement of a block, or what
else there is to a `for` with one initializer. -/
inductive Socket where
  | block (before after : List Tree)
  | header (cond : Option Tree) (update : List Tree) (body : Tree)

namespace Socket

def fill (s : Tree) : Socket → Kind Tree
  | block before after => .block (before ++ s :: after)
  | header cond update body => .forLoop [s] cond update body

def others : Socket → List Tree
  | block before after => before ++ after
  | header cond update body => cond.toList ++ update ++ [body]

variable (σ : Socket) {s d : Tree}

theorem children_fill (s : Tree) : (σ.fill s).children.Perm (s :: σ.others) := by
  cases σ with
  | block before after =>
    rw [fill, Kind.children_block]
    exact List.perm_middle
  | header cond update body =>
    simp [fill, others, Kind.children, Kind.slots, Slot.children]

theorem mem_children_fill {c : Tree} : c ∈ (σ.fill s).children ↔ c = s ∨ c ∈ σ.others := by
  rw [(σ.children_fill s).mem_iff, List.mem_cons]

theorem ids_fill (l : Label) (s : Tree) :
    (Tree.ids (.node l (σ.fill s))).Perm (l.id :: (s.ids ++ σ.others.flatMap Tree.ids)) := by
  rw [Tree.ids_node]
  exact ((σ.children_fill s).flatMap_right _).cons _

theorem ids_entry (l : Label) (s : Tree) : s.ids ⊆ Tree.ids (.node l (σ.fill s)) :=
  Tree.ids_child_subset (t := .node l (σ.fill s)) (σ.mem_children_fill.mpr (.inl rfl))

theorem ids_others (l : Label) (s : Tree) :
    σ.others.flatMap Tree.ids ⊆ Tree.ids (.node l (σ.fill s)) := by
  intro y inside
  rw [(σ.ids_fill l s).mem_iff]
  exact List.mem_cons_of_mem _ (List.mem_append_right _ inside)

/-- The holder of an entry, the entry and what else is in the holder have no number in common. -/
structure Apart (l : Label) (s : Tree) : Prop where
  holder : l.id ∉ s.ids
  holderOthers : l.id ∉ σ.others.flatMap Tree.ids
  entry : s.ids.Nodup
  others : (σ.others.flatMap Tree.ids).Nodup
  between : ∀ y ∈ s.ids, y ∉ σ.others.flatMap Tree.ids

theorem nodup_fill {l : Label} : (Tree.ids (.node l (σ.fill s))).Nodup ↔ σ.Apart l s := by
  rw [(σ.ids_fill l s).nodup_iff, List.nodup_cons, List.mem_append, not_or, List.nodup_append']
  constructor
  · rintro ⟨⟨holder, holderOthers⟩, entry, others, between⟩
    exact ⟨holder, holderOthers, entry, others, fun _ inside listed => between inside listed⟩
  · rintro ⟨holder, holderOthers, entry, others, between⟩
    exact ⟨⟨holder, holderOthers⟩, entry, others, fun y inside listed => between y inside listed⟩

theorem fill_map (f : Tree → Tree) (same : ∀ c ∈ σ.others, f c = c) :
    (σ.fill s).map f = σ.fill (f s) := by
  cases σ with
  | block before after =>
    have first : before.map f = before := List.map_congr_left (g := fun c => c)
      (fun c member => same c (by simp [others, member])) |>.trans (List.map_id' _)
    have second : after.map f = after := List.map_congr_left (g := fun c => c)
      (fun c member => same c (by simp [others, member])) |>.trans (List.map_id' _)
    simp [fill, Kind.map, first, second]
  | header cond update body =>
    have first : cond.map f = cond := by
      cases cond with
      | none => rfl
      | some c => exact congrArg some (same c (by simp [others]))
    have second : update.map f = update := List.map_congr_left (g := fun c => c)
      (fun c member => same c (by simp [others, member])) |>.trans (List.map_id' _)
    simp [fill, Kind.map, first, second, same body (by simp [others])]

theorem graft_fill {l : Label} {y : NodeId} (apart : σ.Apart l s) (inside : y ∈ s.ids)
    (new : Kind Tree) :
    Tree.graft y new (.node l (σ.fill s)) = .node l (σ.fill (Tree.graft y new s)) := by
  have outside : ¬ l.id = y := fun same => apart.holder (same ▸ inside)
  rw [Tree.graft_node, if_neg outside, σ.fill_map]
  intro d other
  apply Tree.graft_of_not_mem
  exact fun common => apart.between y inside (List.mem_flatMap.mpr ⟨d, other, common⟩)

theorem replace_fill (once : ((σ.fill s).children.map Tree.id).Nodup) :
    ((σ.fill s).map Tree.id).editFirst (.replacement s.id d.id) = some ((σ.fill d).map Tree.id) := by
  cases σ with
  | block before after =>
    have first : s.id ∉ before.map Tree.id := by
      rw [fill, Kind.children_block, List.map_append, List.map_cons, List.nodup_append] at once
      exact fun inside => once.2.2 _ inside _ (by simp) rfl
    rw [fill, fill, Kind.map, Kind.map, Kind.replacement_block (by simp), List.map_append,
      List.map_append, List.map_cons, List.map_cons, List.replace_append_right first]
    simp
  | header cond update body =>
    simp only [fill, Kind.map, List.map_cons, List.map_nil, Kind.replacement_header]

theorem of_entry {k : Kind Tree} {l : Label} (entry : s ∈ (Term.node l k).entries) :
    ∃ σ : Socket, k = σ.fill s := by
  rcases List.mem_append.mp entry with listed | only
  · obtain ⟨before, after, split⟩ := List.append_of_mem listed
    refine ⟨.block before after, ?_⟩
    rw [fill, ← split]
    exact Term.kind_of_statement listed
  · obtain ⟨cond, update, body, shape⟩ := Term.onlyInit?_eq_some.mp (by simpa using only)
    exact ⟨.header cond update body, shape⟩

/-- What patches make of the surroundings of an entry. -/
def rebuild (ps : List Patch) (entry : NodeId) : Socket → Socket
  | block before after =>
    block (Tree.rebuildAll ps before ++ Tree.insertions ps entry) (Tree.rebuildAll ps after)
  | header cond update body =>
    header (cond.map (Tree.rebuild ps)) (update.map (Tree.rebuild ps)) (Tree.rebuild ps body)

theorem rebuild_fill (ps : List Patch) (l : Label) (s : Tree) :
    Tree.rebuild ps (.node l (σ.fill s)) =
      .node l ((σ.rebuild ps s.id).fill (Tree.rebuild ps s)) := by
  cases σ with
  | block before after =>
    simp only [fill, rebuild, Tree.rebuild_block, Tree.rebuildAll_append, Tree.rebuildAll_cons,
      List.append_assoc]
  | header cond update body =>
    simp only [fill, rebuild]
    exact Tree.rebuild_other ps l _ rfl rfl

variable {ps : List Patch} {p : Patch} {x : NodeId}

theorem rebuild_folding (apart : p.edit.site.node ∉ σ.others.flatMap Tree.ids)
    (site : p.edit.site = .inPlaceOf x) (entry : NodeId) :
    σ.rebuild (ps ++ [p]) entry = σ.rebuild ps entry := by
  have own : Tree.insertions (ps ++ [p]) entry = Tree.insertions ps entry := by
    simp [Tree.insertions, site]
  cases σ with
  | block before after =>
    rw [others, List.flatMap_append, List.mem_append, not_or] at apart
    simp only [rebuild, own, Tree.rebuildAll_append_of_not_mem apart.1,
      Tree.rebuildAll_append_of_not_mem apart.2]
  | header cond update body =>
    have untouched (c : Tree) (other : c ∈ (header cond update body).others) :
        Tree.rebuild (ps ++ [p]) c = Tree.rebuild ps c :=
      Tree.rebuild_append_of_not_mem fun inside =>
        apart (List.mem_flatMap.mpr ⟨c, other, inside⟩)
    have first : cond.map (Tree.rebuild (ps ++ [p])) = cond.map (Tree.rebuild ps) := by
      cases cond with
      | none => rfl
      | some c => exact congrArg some (untouched c (by simp [others]))
    have second : update.map (Tree.rebuild (ps ++ [p])) = update.map (Tree.rebuild ps) :=
      List.map_congr_left fun c listed => untouched c (by simp [others, listed])
    simp only [rebuild, first, second, untouched body (by simp [others])]

theorem rebuild_insertion {before after : List Tree}
    (apart : p.edit.site.node ∉ (before ++ after).flatMap Tree.ids)
    (site : p.edit.site = .before x) :
    (block before after).rebuild (ps ++ [p]) x =
      block (Tree.rebuildAll ps before ++ Tree.insertions ps x ++ [p.inserted])
        (Tree.rebuildAll ps after) := by
  have own : Tree.insertions (ps ++ [p]) x = Tree.insertions ps x ++ [p.inserted] := by
    simp [Tree.insertions, site]
  rw [List.flatMap_append, List.mem_append, not_or] at apart
  simp only [rebuild, own, Tree.rebuildAll_append_of_not_mem apart.1,
    Tree.rebuildAll_append_of_not_mem apart.2, List.append_assoc]

end Socket

end LocalScope
