import Accure.Register

set_option autoImplicit false

namespace Accure

def shownDocs (ops : List Operation) (valid : Dot → Option Bool) : List DocOp :=
  ((ops.filterMap Operation.asDocument).insertionSort (fun a b => a.dot ≤ b.dot)).filter
    (fun d => (valid d.dot).getD false)

theorem fold_shown (valid : Dot → Option Bool) (docs : List DocOp) (text : List Char) :
    docs.foldl (renderStep valid) text =
      (docs.filter (fun d => (valid d.dot).getD false)).foldl (fun text d => applyEdit text d.edit) text := by
  induction docs generalizing text with
  | nil => rfl
  | cons d tail ih =>
      rw [List.foldl_cons, ih]
      cases shown : (valid d.dot).getD false with
      | true => simp [renderStep, shown]
      | false => simp [renderStep, shown]

theorem render_text_eq (ops : List Operation) (valid : Dot → Option Bool) :
    renderText ops valid = String.ofList ((shownDocs ops valid).foldl (fun text d => applyEdit text d.edit) []) := by
  rw [renderText, fold_shown, shownDocs]

theorem mem_shown_docs (ops : List Operation) (valid : Dot → Option Bool) (d : DocOp) :
    d ∈ shownDocs ops valid ↔ .document d ∈ ops ∧ valid d.dot = some true := by
  rw [shownDocs, List.mem_filter, List.mem_insertionSort, List.mem_filterMap]
  constructor
  · rintro ⟨⟨o, member, document⟩, shown⟩
    rw [as_document_some] at document
    subst document
    refine ⟨member, ?_⟩
    cases value : valid d.dot with
    | none => simp [value] at shown
    | some flag => simpa [value] using shown
  · rintro ⟨member, shown⟩
    exact ⟨⟨_, member, rfl⟩, by simp [shown]⟩

def docDots (ops : List Operation) : List Dot := (ops.filterMap Operation.asDocument).map DocOp.dot

theorem doc_dots_nodup (ops : List Operation) (nodup : (ops.map Operation.dot).Nodup) : (docDots ops).Nodup := by
  have sub : (docDots ops).Sublist (ops.map Operation.dot) := by
    rw [docDots, List.map_filterMap]
    induction ops with
    | nil => exact List.Sublist.slnil
    | cons o tail ih =>
        rw [List.map_cons, List.nodup_cons] at nodup
        cases o with
        | policy p => exact (ih nodup.2).cons _
        | document d => exact (ih nodup.2).cons_cons _
  exact nodup.sublist sub

theorem same_dot_same_doc (ops : List Operation) (nodup : (docDots ops).Nodup) (a b : DocOp) (aIn : .document a ∈ ops)
    (bIn : .document b ∈ ops) (same : a.dot = b.dot) : a = b :=
  List.inj_on_of_nodup_map nodup (List.mem_filterMap.mpr ⟨_, aIn, rfl⟩) (List.mem_filterMap.mpr ⟨_, bIn, rfl⟩) same

theorem shown_docs_nodup (ops : List Operation) (nodup : (docDots ops).Nodup) (valid : Dot → Option Bool) :
    (shownDocs ops valid).Nodup :=
  ((List.perm_insertionSort _ _).nodup_iff.mpr nodup.of_map).filter _

theorem shown_docs_sorted (ops : List Operation) (valid : Dot → Option Bool) :
    (shownDocs ops valid).Pairwise (fun a b => a.dot ≤ b.dot) := by
  have total : Std.Total (fun a b : DocOp => a.dot ≤ b.dot) := ⟨fun a b => le_total a.dot b.dot⟩
  have transitive : IsTrans DocOp (fun a b => a.dot ≤ b.dot) := ⟨fun _ _ _ => le_trans⟩
  exact (List.pairwise_insertionSort _ _).sublist List.filter_sublist

theorem shown_docs_unique (ops : List Operation) (valid : Dot → Option Bool) (nodup : (docDots ops).Nodup) (docs : List DocOp)
    (docsNodup : docs.Nodup) (sorted : docs.Pairwise (fun a b => a.dot ≤ b.dot))
    (members : ∀ d, d ∈ docs ↔ .document d ∈ ops ∧ valid d.dot = some true) : shownDocs ops valid = docs := by
  have perm : (shownDocs ops valid).Perm docs := by
    apply (List.perm_ext_iff_of_nodup (shown_docs_nodup ops nodup valid) docsNodup).mpr
    intro d
    rw [mem_shown_docs, members]
  refine perm.eq_of_pairwise ?_ (shown_docs_sorted ops valid) sorted
  intro a b aIn bIn below above
  have aShown := (mem_shown_docs ops valid a).mp aIn
  exact same_dot_same_doc ops nodup a b aShown.1 ((members b).mp bIn).1 (le_antisymm below above)

theorem render_text_congr (ops other : List Operation) (v u : Dot → Option Bool) (nodup : (docDots ops).Nodup)
    (otherNodup : (docDots other).Nodup)
    (same : ∀ d, (.document d ∈ ops ∧ v d.dot = some true) ↔ (.document d ∈ other ∧ u d.dot = some true)) :
    renderText ops v = renderText other u := by
  have equal := shown_docs_unique ops v nodup (shownDocs other u) (shown_docs_nodup other otherNodup u)
    (shown_docs_sorted other u) (fun d => (mem_shown_docs other u d).trans (same d).symm)
  rw [render_text_eq, render_text_eq, equal]

-- Vec's insert and remove, which panic outside the bounds checked here.
def vecInsert (text : List Char) (p : Nat) (ch : Char) : Option (List Char) :=
  if p ≤ text.length then some (text.insertIdx p ch) else none

def vecRemove (text : List Char) (pos : Nat) : Option (List Char) :=
  if pos < text.length then some (text.eraseIdx pos) else none

def checkedEdit (text : List Char) : TextEdit → Option (List Char)
  | .insert pos ch => vecInsert text (min pos text.length) ch
  | .delete pos => if pos < text.length then vecRemove text pos else some text

def checkedStep (valid : Dot → Option Bool) (text : List Char) (d : DocOp) : Option (List Char) :=
  if !(valid d.dot).getD false then some text else checkedEdit text d.edit

def checkedRender (ops : List Operation) (valid : Dot → Option Bool) : Option String :=
  let docs := (ops.filterMap Operation.asDocument).insertionSort (fun a b => a.dot ≤ b.dot)
  (docs.foldlM (checkedStep valid) []).map String.ofList

theorem checked_edit (text : List Char) (edit : TextEdit) : checkedEdit text edit = some (applyEdit text edit) := by
  cases edit with
  | insert pos ch => exact if_pos (Nat.min_le_right pos text.length)
  | delete pos =>
      by_cases inside : pos < text.length
      · simp [checkedEdit, vecRemove, applyEdit, inside]
      · simp [checkedEdit, applyEdit, inside]

theorem checked_render (ops : List Operation) (valid : Dot → Option Bool) :
    checkedRender ops valid = some (renderText ops valid) := by
  have steps : ∀ (docs : List DocOp) (text : List Char),
      docs.foldlM (checkedStep valid) text = some (docs.foldl (renderStep valid) text) := by
    intro docs
    induction docs with
    | nil => exact fun _ => rfl
    | cons d tail ih =>
        intro text
        have step : checkedStep valid text d = some (renderStep valid text d) := by
          rw [checkedStep, renderStep, checked_edit]
          split <;> rfl
        rw [List.foldlM_cons, step, List.foldl_cons]
        exact ih _
  rw [checkedRender, steps, renderText]
  rfl

theorem rendering_of_shown (ops other : List Operation) (v u : Dot → Option Bool) (nodup : (docDots ops).Nodup)
    (otherNodup : (docDots other).Nodup)
    (same : ∀ d, (.document d ∈ ops ∧ v d.dot = some true) ↔ (.document d ∈ other ∧ u d.dot = some true)) :
    renderText ops v = renderText other u ∧ checkedRender ops v = some (renderText ops v) ∧
      checkedRender other u = some (renderText ops v) := by
  have text := render_text_congr ops other v u nodup otherNodup same
  exact ⟨text, checked_render ops v, text ▸ checked_render other u⟩

theorem shuffled_rendering :
    let a : DocOp := ⟨⟨"A", 1⟩, [], .insert 18446744073709551615 'a'⟩
    let b : DocOp := ⟨⟨"B", 1⟩, [], .insert 0 'b'⟩
    let c : DocOp := ⟨⟨"B", 2⟩, [], .delete 1⟩
    let p : PolicyOp := ⟨⟨"A", 1⟩, "B", .write, .deny, [], none, []⟩
    let shown : Dot → Option Bool := fun d => if d.n = 1 then some true else none
    renderText [.document b, .policy p, .document a] shown = renderText [.document a, .document c, .document b] shown := by
  intro a b c p shown
  refine (rendering_of_shown _ _ shown shown (by decide) (by decide) ?_).1
  intro d
  simp only [List.mem_cons, List.not_mem_nil, or_false, reduceCtorEq, false_or, Operation.document.injEq]
  constructor
  · rintro ⟨rfl | rfl, flag⟩
    · exact ⟨Or.inr (Or.inr rfl), flag⟩
    · exact ⟨Or.inl rfl, flag⟩
  · rintro ⟨rfl | rfl | rfl, flag⟩
    · exact ⟨Or.inr rfl, flag⟩
    · exact absurd flag (by decide)
    · exact ⟨Or.inl rfl, flag⟩

end Accure
