import Mathlib.Data.List.InsertIdx
import Accure.Edits

set_option autoImplicit false

namespace Accure

theorem dot_le_iff (a b : Dot) : a ≤ b ↔ a.site < b.site ∨ a.site = b.site ∧ a.n ≤ b.n := Prod.Lex.toLex_le_toLex

theorem site_le_of_dot_le (a b : Dot) (below : a ≤ b) : a.site ≤ b.site := by
  rcases (dot_le_iff a b).mp below with less | ⟨same, _⟩
  · exact less.le
  · exact same.le

def applyAll (docs : List DocOp) (text : List Char) : List Char := docs.foldl (fun text d => applyEdit text d.edit) text

theorem apply_all_append (docs rest : List DocOp) (text : List Char) :
    applyAll (docs ++ rest) text = applyAll rest (applyAll docs text) := List.foldl_append

theorem current_text_eq (s : State) : (currentText s).toList = applyAll (shownDocs s.log s.valid) [] := by
  rw [currentText, render_text_eq, String.toList_ofList]
  rfl

-- The shown edits that are replayed before those of the sites after a site, and the others.
def State.shownUpTo (s : State) (site : SiteId) : List DocOp :=
  (shownDocs s.log s.valid).filter (fun d => d.dot.site ≤ site)

def State.shownAfter (s : State) (site : SiteId) : List DocOp :=
  (shownDocs s.log s.valid).filter (fun d => site < d.dot.site)

theorem sorted_split (site : SiteId) (docs : List DocOp) (sorted : docs.Pairwise (fun a b => a.dot ≤ b.dot)) :
    docs = docs.filter (fun d => d.dot.site ≤ site) ++ docs.filter (fun d => site < d.dot.site) := by
  induction docs with
  | nil => rfl
  | cons head tail ih =>
      rw [List.pairwise_cons] at sorted
      by_cases early : head.dot.site ≤ site
      · have notLate : ¬ site < head.dot.site := not_lt_of_ge early
        rw [List.filter_cons_of_pos (by simpa using early), List.filter_cons_of_neg (by simpa using notLate), List.cons_append,
          ← ih sorted.2]
      · have late : ∀ d ∈ head :: tail, site < d.dot.site := by
          intro d member
          rcases List.mem_cons.mp member with rfl | later
          · exact lt_of_not_ge early
          · exact (lt_of_not_ge early).trans_le (site_le_of_dot_le _ _ (sorted.1 d later))
        have none : (head :: tail).filter (fun d => d.dot.site ≤ site) = [] := by
          apply List.filter_eq_nil_iff.mpr
          intro d member
          simpa using late d member
        have all : (head :: tail).filter (fun d => site < d.dot.site) = head :: tail := by
          apply List.filter_eq_self.mpr
          intro d member
          simpa using late d member
        rw [none, all, List.nil_append]

theorem shown_split (s : State) (site : SiteId) : shownDocs s.log s.valid = s.shownUpTo site ++ s.shownAfter site :=
  sorted_split site _ (shown_docs_sorted s.log s.valid)

theorem split_shown_iff (s : State) (site : SiteId) (d : DocOp) : d ∈ s.shownUpTo site ∨ d ∈ s.shownAfter site ↔
    .document d ∈ s.log ∧ s.valid d.dot = some true := by
  rw [← List.mem_append, ← shown_split s site, mem_shown_docs]

section Written

variable (rank : Dot → Nat) (strategy : Strategy) (w : World) (causal : Causal rank strategy w) (i : SiteId) (edit : TextEdit)

include causal

-- A new edit comes after its author's own edits and those of earlier sites.
theorem fresh_document_last (d : DocOp) (member : d ∈ (w.site i).state.shownUpTo i) :
    d.dot ≤ (freshDocument (w.site i).state edit).dot := by
  rw [State.shownUpTo, List.mem_filter, decide_eq_true_eq, mem_shown_docs] at member
  rw [fresh_document_dot rank strategy w causal i edit, dot_le_iff]
  rcases lt_or_eq_of_le member.2 with less | same
  · exact Or.inl less
  · have bound := history_bound w causal.toFaithful _ (log_recorded w causal.toFaithful i _ member.1.1)
    rw [dot_document, same] at bound
    exact Or.inr ⟨same, bound.trans (Nat.le_succ _)⟩

theorem fresh_document_before (d : DocOp) (member : d ∈ (w.site i).state.shownAfter i) :
    (freshDocument (w.site i).state edit).dot ≤ d.dot := by
  rw [State.shownAfter, List.mem_filter, decide_eq_true_eq] at member
  rw [fresh_document_dot rank strategy w causal i edit, dot_le_iff]
  exact Or.inl member.2

theorem written_shown_iff
    (valid : (written (w.site i).state edit).valid (freshDocument (w.site i).state edit).dot = some true) (d : DocOp) :
    .document d ∈ (written (w.site i).state edit).log ∧ (written (w.site i).state edit).valid d.dot = some true ↔
      (.document d ∈ (w.site i).state.log ∧ (w.site i).state.valid d.dot = some true) ∨
        d = freshDocument (w.site i).state edit := by
  have logged : .document d ∈ (written (w.site i).state edit).log ↔
      .document d ∈ (w.site i).state.log ∨ d = freshDocument (w.site i).state edit := by simp [written]
  have keeps : ∀ member : .document d ∈ (w.site i).state.log,
      (written (w.site i).state edit).valid d.dot = (w.site i).state.valid d.dot :=
    fun member => written_keeps rank strategy w causal i edit (.document d) member
  rw [logged]
  constructor
  · rintro ⟨member | same, shown⟩
    · exact Or.inl ⟨member, keeps member ▸ shown⟩
    · exact Or.inr same
  · rintro (⟨member, shown⟩ | rfl)
    · exact ⟨Or.inl member, (keeps member).trans shown⟩
    · exact ⟨Or.inr rfl, valid⟩

theorem written_shown
    (valid : (written (w.site i).state edit).valid (freshDocument (w.site i).state edit).dot = some true) :
    shownDocs (written (w.site i).state edit).log (written (w.site i).state edit).valid =
      (w.site i).state.shownUpTo i ++ freshDocument (w.site i).state edit :: (w.site i).state.shownAfter i := by
  have split := shown_split (w.site i).state i
  have inside := split_shown_iff (w.site i).state i
  have shownSorted := shown_docs_sorted (w.site i).state.log (w.site i).state.valid
  have new : freshDocument (w.site i).state edit ∉ (w.site i).state.shownUpTo i ++ (w.site i).state.shownAfter i := by
    intro member
    have logged := ((inside _).mp (List.mem_append.mp member)).1
    exact fresh_document_apart rank strategy w causal i edit _ logged rfl
  apply shown_docs_unique _ _ (doc_dots_nodup _ (written_sound rank strategy w causal i edit).nodup)
  · have shownNodup := shown_docs_nodup _ (doc_dots_nodup _ (causal.sound i).nodup) (w.site i).state.valid
    rw [List.nodup_middle, List.nodup_cons]
    exact ⟨new, split ▸ shownNodup⟩
  · rw [split, List.pairwise_append] at shownSorted
    rw [List.pairwise_append, List.pairwise_cons]
    refine ⟨shownSorted.1, ⟨fresh_document_before rank strategy w causal i edit, shownSorted.2.1⟩, ?_⟩
    intro a early b later
    rcases List.mem_cons.mp later with rfl | after
    · exact fresh_document_last rank strategy w causal i edit a early
    · exact shownSorted.2.2 a early b after
  · intro d
    rw [written_shown_iff rank strategy w causal i edit valid d, ← inside d, List.mem_append, List.mem_cons]
    tauto

end Written

section Positions

def TextEdit.lengthAfter (edit : TextEdit) (length : Nat) : Nat :=
  match edit with
  | .insert _ _ => length + 1
  | .delete pos => if pos < length then length - 1 else length

def textLength (docs : List DocOp) (length : Nat) : Nat := docs.foldl (fun length d => d.edit.lengthAfter length) length

-- Where the character at a place stands after an edit that falls on the same spot
-- of the text without that character. No other edit has an answer.
def TextEdit.passes (edit : TextEdit) (place length : Nat) : Option Nat :=
  match edit with
  | .insert pos _ => if pos ≤ place then some (place + 1) else if length ≤ pos then some place else none
  | .delete pos => if pos < place then some (place - 1) else if length ≤ pos then some place else none

def passesAll : List DocOp → Nat → Nat → Option Nat
  | [], place, _ => some place
  | d :: rest, place, length =>
      (d.edit.passes place length).bind fun next => passesAll rest next (d.edit.lengthAfter length)

def Undisturbed (edit : TextEdit) (length : Nat) (docs : List DocOp) : Prop :=
  match edit with
  | .insert pos _ => passesAll docs (min pos length) (length + 1) = some (min pos (textLength docs length))
  | .delete pos => if pos < length then passesAll docs pos length = some pos else textLength docs length ≤ pos

instance (edit : TextEdit) (length : Nat) (docs : List DocOp) : Decidable (Undisturbed edit length docs) :=
  match edit with
  | .insert pos _ =>
      inferInstanceAs (Decidable (passesAll docs (min pos length) (length + 1) = some (min pos (textLength docs length))))
  | .delete pos =>
      inferInstanceAs (Decidable (if pos < length then passesAll docs pos length = some pos else textLength docs length ≤ pos))

theorem apply_edit_length (edit : TextEdit) (text : List Char) :
    (applyEdit text edit).length = edit.lengthAfter text.length := by
  cases edit with
  | insert pos ch => exact List.length_insertIdx_of_le_length (Nat.min_le_right pos text.length) ch
  | delete pos =>
      rw [applyEdit, TextEdit.lengthAfter]
      split
      next inside => exact List.length_eraseIdx_of_lt inside
      next => rfl

theorem apply_all_length (docs : List DocOp) (text : List Char) :
    (applyAll docs text).length = textLength docs text.length := by
  induction docs generalizing text with
  | nil => rfl
  | cons d rest ih => exact (ih (applyEdit text d.edit)).trans (by rw [apply_edit_length]; rfl)

-- A text and the same without one of its characters take the edit alike.
theorem passes_alike (edit : TextEdit) (text : List Char) (place next : Nat) (inside : place < text.length)
    (passes : edit.passes place text.length = some next) :
    next < (applyEdit text edit).length ∧ (applyEdit text edit)[next]? = text[place]? ∧
      applyEdit (text.eraseIdx place) edit = (applyEdit text edit).eraseIdx next := by
  have shorter := List.length_eraseIdx_of_lt inside
  cases edit with
  | insert pos ch =>
      have longer := List.length_insertIdx_of_le_length (Nat.min_le_right pos text.length) ch
      rw [TextEdit.passes] at passes
      simp only [applyEdit, shorter, longer]
      split at passes
      next before =>
        obtain rfl := Option.some.inj passes
        rw [Nat.min_eq_left (by omega), Nat.min_eq_left (by omega)]
        exact ⟨by omega, List.getElem?_insertIdx_of_gt (by omega), List.insertIdx_eraseIdx_of_le inside before⟩
      next =>
        split at passes
        next beyond =>
          obtain rfl := Option.some.inj passes
          rw [Nat.min_eq_right beyond, Nat.min_eq_right (by omega), List.insertIdx_eraseIdx_of_ge inside (by omega),
            Nat.sub_add_cancel (by omega)]
          exact ⟨by omega, List.getElem?_insertIdx_of_lt inside, rfl⟩
        next => cases passes
  | delete pos =>
      rw [TextEdit.passes] at passes
      simp only [applyEdit, shorter]
      split at passes
      next before =>
        obtain rfl := Option.some.inj passes
        have cut : pos < text.length := by omega
        rw [if_pos cut, if_pos (by omega), List.length_eraseIdx_of_lt cut]
        refine ⟨by omega, ?_, List.ext_getElem? fun k => ?_⟩
        · rw [List.getElem?_eraseIdx_of_ge (by omega), Nat.sub_add_cancel (by omega)]
        · simp only [List.getElem?_eraseIdx]
          split_ifs <;> first | omega | rfl
      next =>
        split at passes
        next beyond =>
          obtain rfl := Option.some.inj passes
          rw [if_neg (by omega), if_neg (by omega)]
          exact ⟨inside, rfl, rfl⟩
        next => cases passes

theorem passes_all_alike (docs : List DocOp) (text : List Char) (place next : Nat) (inside : place < text.length)
    (passes : passesAll docs place text.length = some next) :
    next < (applyAll docs text).length ∧ (applyAll docs text)[next]? = text[place]? ∧
      applyAll docs (text.eraseIdx place) = (applyAll docs text).eraseIdx next := by
  induction docs generalizing text place with
  | nil =>
      obtain rfl := Option.some.inj passes
      exact ⟨inside, rfl, rfl⟩
  | cons d rest ih =>
      obtain ⟨middle, first, later⟩ := Option.bind_eq_some_iff.mp passes
      obtain ⟨within, same, alike⟩ := passes_alike d.edit text place middle inside first
      rw [← apply_edit_length] at later
      obtain ⟨last, kept, all⟩ := ih (applyEdit text d.edit) middle within later
      exact ⟨last, kept.trans same, (congrArg (applyAll rest) alike).trans all⟩

theorem undisturbed_commutes (edit : TextEdit) (docs : List DocOp) (text : List Char)
    (undisturbed : Undisturbed edit text.length docs) :
    applyAll docs (applyEdit text edit) = applyEdit (applyAll docs text) edit := by
  cases edit with
  | insert pos ch =>
      have bound := Nat.min_le_right pos text.length
      have longer := List.length_insertIdx_of_le_length bound ch
      rw [Undisturbed, ← longer, ← apply_all_length] at undisturbed
      obtain ⟨inside, same, alike⟩ :=
        passes_all_alike docs (text.insertIdx (min pos text.length) ch) _ _ (by omega) undisturbed
      rw [List.eraseIdx_insertIdx_self] at alike
      rw [List.getElem?_insertIdx_self, if_pos bound] at same
      rw [applyEdit, applyEdit]
      generalize min pos (applyAll docs text).length = place at inside same alike ⊢
      obtain ⟨_, here⟩ := List.getElem?_eq_some_iff.mp same
      have back := List.insertIdx_eraseIdx_getElem inside
      rw [here, ← alike] at back
      exact back.symm
  | delete pos =>
      rw [Undisturbed] at undisturbed
      rw [applyEdit, applyEdit, apply_all_length]
      by_cases within : pos < text.length
      · rw [if_pos within] at undisturbed ⊢
        obtain ⟨inside, _, alike⟩ := passes_all_alike docs text pos pos within undisturbed
        rw [apply_all_length] at inside
        rw [if_pos inside, alike]
      · rw [if_neg within] at undisturbed ⊢
        rw [if_neg (by omega)]

theorem undisturbed_last (edit : TextEdit) (length : Nat) : Undisturbed edit length [] := by
  cases edit with
  | insert pos ch => rfl
  | delete pos =>
      rw [Undisturbed]
      split
      next => rfl
      next outside => exact Nat.le_of_not_lt outside

end Positions

theorem local_edit_kept (strategy : Strategy) (w : World) (run : CausalRun strategy w) (i : SiteId) (edit : TextEdit)
    (d : DocOp) (s : State) (doc : Doc) (ok : updateDocument (w.site i).state (w.site i).doc edit = .ok (d, s, doc))
    (valid : s.valid d.dot = some true) :
    (Undisturbed edit (textLength ((w.site i).state.shownUpTo i) 0) ((w.site i).state.shownAfter i) →
      (currentText s).toList = applyEdit (currentText (w.site i).state).toList edit) ∧
    ((∀ e, .document e ∈ (w.site i).state.log → (w.site i).state.valid e.dot = some true → e.dot.site ≤ i) →
      (currentText s).toList = applyEdit (currentText (w.site i).state).toList edit) := by
  obtain ⟨rank, causal⟩ := causal_run strategy w run
  obtain ⟨_, rfl, rfl, _⟩ := (update_document_ok _ _ _ _ _ _).mp ok
  have shown := written_shown rank strategy w causal i edit valid
  rw [written] at shown
  have after : (currentText (effectDocument (w.site i).state.allocated (freshDocument (w.site i).state edit))).toList =
      applyAll ((w.site i).state.shownAfter i) (applyEdit (applyAll ((w.site i).state.shownUpTo i) []) edit) := by
    rw [current_text_eq, shown, apply_all_append]
    rfl
  have before : (currentText (w.site i).state).toList =
      applyAll ((w.site i).state.shownAfter i) (applyAll ((w.site i).state.shownUpTo i) []) := by
    rw [current_text_eq, shown_split _ i, apply_all_append]
  have length := apply_all_length ((w.site i).state.shownUpTo i) []
  have kept : Undisturbed edit (textLength ((w.site i).state.shownUpTo i) 0) ((w.site i).state.shownAfter i) →
      (currentText (effectDocument (w.site i).state.allocated (freshDocument (w.site i).state edit))).toList =
        applyEdit (currentText (w.site i).state).toList edit := by
    intro undisturbed
    rw [after, before]
    exact undisturbed_commutes edit _ _ (length ▸ undisturbed)
  refine ⟨kept, fun upTo => kept ?_⟩
  have none : (w.site i).state.shownAfter i = [] := by
    apply List.filter_eq_nil_iff.mpr
    intro e member
    obtain ⟨logged, flag⟩ := (mem_shown_docs _ _ e).mp member
    rw [decide_eq_true_eq]
    exact not_lt_of_ge (upTo e logged flag)
  rw [none]
  exact undisturbed_last edit _

def sharedText : List Action :=
  [.document "A" (.insert 0 'a'), .document "C" (.insert 0 'c'),
    .sync "B" "A" [⟨"A", 1⟩], .sync "B" "C" [⟨"A", 1⟩, ⟨"C", 1⟩], .rebuild "B"]

theorem shared_text_runs : (play .integrity sharedText).isSome = true := by decide +kernel

def sharedTextWorld : World := (play .integrity sharedText).get shared_text_runs

theorem appended_edit_shown :
    (currentText (written (sharedTextWorld.site "B").state (.insert 2 'b'))).toList =
      applyEdit (currentText (sharedTextWorld.site "B").state).toList (.insert 2 'b') :=
  (local_edit_kept .integrity sharedTextWorld (played .integrity sharedText shared_text_runs) "B" (.insert 2 'b') _ _ _
    (update_document_accepted _ _ _ (by decide +kernel)) (by decide +kernel)).1 (by decide +kernel)

theorem front_edit_misplaced : ¬ ∀ strategy w, CausalRun strategy w → ∀ i edit d s doc,
    updateDocument (w.site i).state (w.site i).doc edit = .ok (d, s, doc) → s.valid d.dot = some true →
    (currentText s).toList = applyEdit (currentText (w.site i).state).toList edit := by
  intro holds
  have shown := holds .integrity sharedTextWorld (played .integrity sharedText shared_text_runs) "B" (.insert 0 'b') _ _ _
    (update_document_accepted _ _ _ (by decide +kernel)) (by decide +kernel)
  exact absurd shown (by decide +kernel)

end Accure
