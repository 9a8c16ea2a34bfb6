import Accure.Faithful
import Accure.Levels

set_option autoImplicit false

namespace Accure

def Operation.deps : Operation → List Dot
  | .policy p => p.deps
  | .document d => d.deps

def Operation.tuple : Operation → AccessTuple
  | .policy p => p.tuple
  | .document d => d.tuple

-- What causal delivery adds: a dependency was in its author's lists, so it is
-- in any lists the op reaches and stands before it there.
structure Grounded (rank : Dot → Nat) (w : World) : Prop extends Faithful w where
  closed : ∀ i, ∀ o ∈ (w.site i).doc.ops, ∀ d ∈ w.held o.dot, d ∈ (w.site i).doc.dots
  ordered : ∀ i, (w.site i).doc.policyLog.Pairwise (fun earlier later => later.dot ∉ w.held earlier.dot)
  deps : ∀ o ∈ w.history, ∀ a ∈ o.deps, a ∈ w.held o.dot ∧ ∃ q, .policy q ∈ w.history ∧ q.tuple = o.tuple ∧ q.dot = a
  rankRoot : ∀ p, .policy p ∈ w.history → p.deps = [] → rank p.dot = 1
  rankDep : ∀ p, .policy p ∈ w.history → ∀ a ∈ p.deps, rank p.dot = rank a + 1
  sound : ∀ i, Sound rank (w.site i).state

-- The same when all sites follow one strategy.
structure Causal (rank : Dot → Nat) (strategy : Strategy) (w : World) : Prop extends Grounded rank w where
  strategies : ∀ i, (w.site i).state.strategy = strategy

theorem sound_rerank (rank other : Dot → Nat) (s : State) (sound : Sound rank s)
    (agree : ∀ o ∈ s.log, other o.dot = rank o.dot) : Sound other s := by
  refine ⟨⟨sound.nodup, sound.nodes, sound.parents, sound.deps, sound.docDeps, sound.ordered, ?_, ?_⟩,
    sound.settled, sound.domain⟩
  · intro p member empty
    exact (agree _ member).trans (sound.rankRoot p member empty)
  · intro p member a dep
    obtain ⟨q, qIn, _, dot⟩ := sound.deps p member a dep
    have pRank : other p.dot = rank p.dot := agree _ member
    have qRank : other a = rank a := dot ▸ agree _ qIn
    rw [pRank, qRank]
    exact sound.rankDep p member a dep

theorem sound_allocated (rank : Dot → Nat) (s : State) (sound : Sound rank s) : Sound rank s.allocated :=
  ⟨⟨sound.nodup, sound.nodes, sound.parents, sound.deps, sound.docDeps, sound.ordered, sound.rankRoot, sound.rankDep⟩,
    sound.settled, sound.domain⟩

-- The rank of a policy op generated now: one above the top level it names.
def freshRank (s : State) (t : AccessTuple) : Nat :=
  if (currentTopLevelDeps s t).isEmpty then 1 else (s.dagAt t).maxLevel + 1

theorem fresh_policy_arrives (rank other : Dot → Nat) (s : State) (target : SiteId) (right : Right) (effect : Effect)
    (sound : Sound rank s) (fresh : ∀ o ∈ s.log, o.dot ≠ (freshPolicy s target right effect).dot)
    (agree : ∀ o ∈ s.log, other o.dot = rank o.dot)
    (rankHere : other (freshPolicy s target right effect).dot = freshRank s ⟨target, right⟩) :
    PolicyArrives other s.allocated (freshPolicy s target right effect) := by
  have top := mem_top_deps rank s sound.toConsistent ⟨target, right⟩
  constructor
  · exact fresh
  · intro a dep
    exact ((top a).mp dep).1
  · intro empty
    have none : currentTopLevelDeps s ⟨target, right⟩ = [] := empty
    rw [rankHere, freshRank, none]
    rfl
  · intro a dep
    obtain ⟨⟨q, qIn, _, dot⟩, level, _⟩ := (top a).mp dep
    have some : (currentTopLevelDeps s ⟨target, right⟩).isEmpty = false := by
      rw [List.isEmpty_eq_false_iff_exists_mem]
      exact ⟨a, dep⟩
    have qRank : other a = rank a := dot ▸ agree _ qIn
    rw [rankHere, freshRank, some, qRank, level]
    rfl

theorem fresh_document_arrives (rank : Dot → Nat) (s : State) (edit : TextEdit) (sound : Sound rank s)
    (fresh : ∀ o ∈ s.log, o.dot ≠ (freshDocument s edit).dot) :
    DocumentArrives s.allocated (freshDocument s edit) :=
  ⟨fresh, fun a dep => ((mem_top_deps rank s sound.toConsistent ⟨s.me, .write⟩ a).mp dep).1⟩

theorem head_arrives (rank : Dot → Nat) (head : PolicyOp) (tail : List PolicyOp) (s : State)
    (fresh : ∀ o ∈ s.log, o.dot ≠ head.dot) (order : ∀ q ∈ tail, q.dot ∉ head.deps)
    (deps : ∀ a ∈ head.deps, ∃ q, (.policy q ∈ s.log ∨ q ∈ head :: tail) ∧ q.tuple = head.tuple ∧ q.dot = a)
    (rankRoot : head.deps = [] → rank head.dot = 1) (rankDep : ∀ a ∈ head.deps, rank head.dot = rank a + 1) :
    PolicyArrives rank s head := by
  refine ⟨fresh, ?_, rankRoot, rankDep⟩
  intro a dep
  obtain ⟨q, place, tuple, dot⟩ := deps a dep
  rcases place with logged | row
  · exact ⟨q, logged, tuple, dot⟩
  · rcases List.mem_cons.mp row with same | later
    · have step := rankDep a dep
      rw [← dot, same] at step
      omega
    · exact absurd (dot ▸ dep) (order q later)

-- Policy ops that come in an order in which dependencies are first arrive one
-- after the other.
theorem policies_arrive (rank : Dot → Nat) (rows : List PolicyOp) (s : State) (sound : Sound rank s)
    (fresh : ∀ o ∈ s.log, ∀ p ∈ rows, o.dot ≠ p.dot) (apart : (rows.map PolicyOp.dot).Nodup)
    (order : rows.Pairwise (fun earlier later => later.dot ∉ earlier.deps))
    (deps : ∀ p ∈ rows, ∀ a ∈ p.deps, ∃ q, (.policy q ∈ s.log ∨ q ∈ rows) ∧ q.tuple = p.tuple ∧ q.dot = a)
    (rankRoot : ∀ p ∈ rows, p.deps = [] → rank p.dot = 1) (rankDep : ∀ p ∈ rows, ∀ a ∈ p.deps, rank p.dot = rank a + 1) :
    (∀ before p after, rows = before ++ p :: after →
      Sound rank (before.foldl effectPolicy s) ∧ PolicyArrives rank (before.foldl effectPolicy s) p) ∧
      Sound rank (rows.foldl effectPolicy s) := by
  induction rows generalizing s with
  | nil => exact ⟨fun before p after split => absurd split (by simp), sound⟩
  | cons head tail ih =>
      rw [List.map_cons, List.nodup_cons] at apart
      rw [List.pairwise_cons] at order
      have arrives := head_arrives rank head tail s (fun o member => fresh o member head (by simp)) order.1
        (deps head (by simp)) (rankRoot head (by simp)) (rankDep head (by simp))
      have freshTail : ∀ o ∈ (effectPolicy s head).log, ∀ p ∈ tail, o.dot ≠ p.dot := by
        intro o member p row
        rw [effect_policy_log, List.mem_append, List.mem_singleton] at member
        rcases member with old | new
        · exact fresh o old p (by simp [row])
        · subst new
          exact fun same => apart.1 (List.mem_map.mpr ⟨p, row, same.symm⟩)
      have depsTail : ∀ p ∈ tail, ∀ a ∈ p.deps,
          ∃ q, (.policy q ∈ (effectPolicy s head).log ∨ q ∈ tail) ∧ q.tuple = p.tuple ∧ q.dot = a := by
        intro p row a dep
        obtain ⟨q, place, tuple, dot⟩ := deps p (by simp [row]) a dep
        refine ⟨q, ?_, tuple, dot⟩
        rcases place with logged | inRows
        · exact Or.inl (by simp [logged])
        · rcases List.mem_cons.mp inRows with same | later
          · exact Or.inl (by simp [same])
          · exact Or.inr later
      have next := ih (effectPolicy s head) (effect_policy_sound rank s head sound arrives) freshTail apart.2 order.2 depsTail
        (fun p member => rankRoot p (by simp [member])) (fun p member => rankDep p (by simp [member]))
      refine ⟨?_, next.2⟩
      intro before p after split
      cases before with
      | nil =>
          obtain ⟨rfl, _⟩ := List.cons_eq_cons.mp split
          exact ⟨sound, arrives⟩
      | cons first rest =>
          obtain ⟨rfl, tailSplit⟩ := List.cons_eq_cons.mp split
          exact next.1 rest p after tailSplit

theorem documents_arrive (rank : Dot → Nat) (rows : List DocOp) (s : State) (sound : Sound rank s)
    (fresh : ∀ o ∈ s.log, ∀ d ∈ rows, o.dot ≠ d.dot) (apart : (rows.map DocOp.dot).Nodup)
    (deps : ∀ d ∈ rows, ∀ a ∈ d.deps, ∃ q, .policy q ∈ s.log ∧ q.tuple = d.tuple ∧ q.dot = a) :
    Sound rank (rows.foldl effectDocument s) := by
  induction rows generalizing s with
  | nil => exact sound
  | cons head tail ih =>
      rw [List.map_cons, List.nodup_cons] at apart
      have arrives : DocumentArrives s head := ⟨fun o member => fresh o member head (by simp), deps head (by simp)⟩
      apply ih (effectDocument s head) (effect_document_sound rank s head sound arrives) _ apart.2
      · intro d row a dep
        obtain ⟨q, qIn, tuple, dot⟩ := deps d (by simp [row]) a dep
        exact ⟨q, by simp [qIn], tuple, dot⟩
      · intro o member d row
        rw [effect_document_log, List.mem_append, List.mem_singleton] at member
        rcases member with old | new
        · exact fresh o old d (by simp [row])
        · subst new
          exact fun same => apart.1 (List.mem_map.mpr ⟨d, row, same.symm⟩)

structure Replayable (rank : Dot → Nat) (s : State) (doc : Doc) : Prop where
  sound : Sound rank s
  logged : ∀ o ∈ s.log, o ∈ doc.ops
  once : doc.dots.Nodup
  order : doc.policyLog.Pairwise (fun earlier later => later.dot ∉ earlier.deps)
  deps : ∀ o ∈ doc.ops, ∀ a ∈ o.deps, ∃ q, q ∈ doc.policyLog ∧ q.tuple = o.tuple ∧ q.dot = a
  rankRoot : ∀ p ∈ doc.policyLog, p.deps = [] → rank p.dot = 1
  rankDep : ∀ p ∈ doc.policyLog, ∀ a ∈ p.deps, rank p.dot = rank a + 1

section Replay

variable (rank : Dot → Nat) (s : State) (doc : Doc) (replayable : Replayable rank s doc)

include replayable

theorem mem_new_policies (p : PolicyOp) : p ∈ newPolicies s doc ↔ p ∈ doc.policyLog ∧ .policy p ∉ s.log := by
  rw [newPolicies, List.mem_filter]
  constructor
  · rintro ⟨member, new⟩
    exact ⟨member, by simpa [new_policies_iff s doc replayable.once replayable.logged p member] using new⟩
  · rintro ⟨member, new⟩
    refine ⟨member, ?_⟩
    rw [decide_eq_true_eq, new_policies_iff s doc replayable.once replayable.logged p member]
    exact new

theorem mem_new_documents (d : DocOp) : d ∈ newDocuments s doc ↔ d ∈ doc.docLog ∧ .document d ∉ s.log := by
  rw [newDocuments, List.mem_filter]
  constructor
  · rintro ⟨member, new⟩
    exact ⟨member, by simpa [new_documents_iff s doc replayable.once replayable.logged d member] using new⟩
  · rintro ⟨member, new⟩
    refine ⟨member, ?_⟩
    rw [decide_eq_true_eq, new_documents_iff s doc replayable.once replayable.logged d member]
    exact new

theorem new_dot (o : Operation) (member : o ∈ doc.ops) (new : o ∉ s.log) : ∀ x ∈ s.log, x.dot ≠ o.dot := by
  intro x old same
  exact new (same_dot_same_op doc.ops replayable.once x o (replayable.logged x old) member same ▸ old)

theorem replay_policies :
    (∀ before p after, newPolicies s doc = before ++ p :: after →
      Sound rank (before.foldl effectPolicy s) ∧ PolicyArrives rank (before.foldl effectPolicy s) p) ∧
      Sound rank ((newPolicies s doc).foldl effectPolicy s) := by
  have inDoc : ∀ p ∈ newPolicies s doc, p ∈ doc.policyLog := fun p row => (List.mem_filter.mp row).1
  apply policies_arrive rank _ s replayable.sound
  · intro o old p row
    obtain ⟨member, new⟩ := (mem_new_policies rank s doc replayable p).mp row
    exact new_dot rank s doc replayable (.policy p) ((policy_mem_ops doc p).mpr member) new o old
  · have whole := replayable.once
    rw [Doc.dots, Doc.ops, List.map_append, List.map_map] at whole
    exact whole.of_append_left.sublist (List.filter_sublist.map _)
  · exact replayable.order.sublist List.filter_sublist
  · intro p row a dep
    obtain ⟨q, member, tuple, dot⟩ := replayable.deps (.policy p) ((policy_mem_ops doc p).mpr (inDoc p row)) a dep
    refine ⟨q, ?_, tuple, dot⟩
    by_cases old : .policy q ∈ s.log
    · exact Or.inl old
    · exact Or.inr ((mem_new_policies rank s doc replayable q).mpr ⟨member, old⟩)
  · exact fun p row => replayable.rankRoot p (inDoc p row)
  · exact fun p row => replayable.rankDep p (inDoc p row)

theorem integrated_sound : Sound rank (integrated s doc) := by
  apply documents_arrive rank _ _ (replay_policies rank s doc replayable).2
  · intro o old d row
    rw [fold_policies_log, List.mem_append] at old
    obtain ⟨member, new⟩ := (mem_new_documents rank s doc replayable d).mp row
    have dIn := (document_mem_ops doc d).mpr member
    rcases old with logged | row
    · exact new_dot rank s doc replayable (.document d) dIn new o logged
    · obtain ⟨p, pRow, rfl⟩ := List.mem_map.mp row
      have pIn := (policy_mem_ops doc p).mpr ((mem_new_policies rank s doc replayable p).mp pRow).1
      intro same
      cases same_dot_same_op doc.ops replayable.once _ (.document d) pIn dIn same
  · have whole := replayable.once
    rw [Doc.dots, Doc.ops, List.map_append, List.map_map, List.map_map] at whole
    exact whole.of_append_right.sublist (List.filter_sublist.map _)
  · intro d row a dep
    have member := ((mem_new_documents rank s doc replayable d).mp row).1
    obtain ⟨q, qIn, tuple, dot⟩ := replayable.deps (.document d) ((document_mem_ops doc d).mpr member) a dep
    refine ⟨q, ?_, tuple, dot⟩
    rw [fold_policies_log, List.mem_append]
    by_cases old : .policy q ∈ s.log
    · exact Or.inl old
    · exact Or.inr (List.mem_map_of_mem ((mem_new_policies rank s doc replayable q).mpr ⟨qIn, old⟩))

theorem rebuild_integrated : (rebuildFromAutomerge s doc).1 = integrated s doc := by
  rw [rebuild_eq, sound_rebuild rank _ (integrated_sound rank s doc replayable)]

theorem rebuild_sound : Sound rank (rebuildFromAutomerge s doc).1 :=
  rebuild_integrated rank s doc replayable ▸ integrated_sound rank s doc replayable

end Replay

section Step

variable (rank : Dot → Nat) (w : World) (grounded : Grounded rank w)

include grounded

theorem replayable_doc (doc : Doc) (recorded : ∀ o ∈ doc.ops, o ∈ w.history) (once : doc.dots.Nodup)
    (closed : ∀ o ∈ doc.ops, ∀ d ∈ w.held o.dot, d ∈ doc.dots)
    (ordered : doc.policyLog.Pairwise (fun earlier later => later.dot ∉ w.held earlier.dot))
    (s : State) (sound : Sound rank s) (logged : ∀ o ∈ s.log, o ∈ doc.ops) : Replayable rank s doc := by
  have inHistory : ∀ p ∈ doc.policyLog, .policy p ∈ w.history := fun p member => recorded _ ((policy_mem_ops doc p).mpr member)
  refine ⟨sound, logged, once, ?_, ?_, fun p member => grounded.rankRoot p (inHistory p member),
    fun p member => grounded.rankDep p (inHistory p member)⟩
  · exact ordered.imp_of_mem fun {earlier later} member _ apart dep =>
      apart (grounded.deps _ (inHistory earlier member) _ dep).1
  · intro o member a dep
    obtain ⟨held, q, qIn, tuple, dot⟩ := grounded.deps o (recorded o member) a dep
    obtain ⟨x, xIn, xDot⟩ := List.mem_map.mp (closed o member a held)
    have same := same_dot_same_op w.history (history_distinct w grounded.toFaithful) x (.policy q) (recorded x xIn) qIn
      (xDot.trans dot.symm)
    exact ⟨q, (policy_mem_ops doc q).mp (same ▸ xIn), tuple, dot⟩

theorem replayable (i : SiteId) : Replayable rank (w.site i).state (w.site i).doc :=
  replayable_doc rank w grounded _ (grounded.recorded i) (grounded.once i) (grounded.closed i) (grounded.ordered i) _
    (grounded.sound i) (grounded.logged i)

theorem held_recorded (i : SiteId) (o : Operation) (member : o ∈ (w.site i).doc.ops) (d : Dot)
    (held : d ∈ w.held o.dot) : ∃ x ∈ w.history, x.dot = d := by
  obtain ⟨x, xIn, dot⟩ := List.mem_map.mp (grounded.closed i o member d held)
  exact ⟨x, grounded.recorded i x xIn, dot⟩

section Generate

variable (other : Dot → Nat) (i : SiteId) (o : Operation) (s : State) (fresh : ∀ x ∈ w.history, x.dot ≠ o.dot)

include fresh

omit grounded in
theorem held_old (site : Site) (x : Operation) (member : x ∈ w.history) :
    (w.generate i o site).held x.dot = w.held x.dot := Function.update_of_ne (fresh x member) _ _

omit grounded fresh in
theorem held_new (site : Site) : (w.generate i o site).held o.dot = (w.site i).doc.dots := Function.update_self _ _ _

theorem generate_closed (j : SiteId) :
    ∀ x ∈ ((w.generate i o ⟨s, (w.site i).doc.append o⟩).site j).doc.ops,
      ∀ d ∈ (w.generate i o ⟨s, (w.site i).doc.append o⟩).held x.dot,
        d ∈ ((w.generate i o ⟨s, (w.site i).doc.append o⟩).site j).doc.dots := by
  have growDots : ∀ d ∈ (w.site i).doc.dots, d ∈ ((w.site i).doc.append o).dots := by
    intro d member
    obtain ⟨x, xIn, rfl⟩ := List.mem_map.mp member
    exact List.mem_map_of_mem ((mem_doc_append _ o x).mpr (Or.inl xIn))
  refine generate_each w i o _ (fun _ site => ∀ x ∈ site.doc.ops,
    ∀ d ∈ (w.generate i o ⟨s, (w.site i).doc.append o⟩).held x.dot, d ∈ site.doc.dots) ?_ ?_ j
  · intro x member d held
    rcases (mem_doc_append _ o x).mp member with old | new
    · rw [held_old w i o fresh _ x (grounded.recorded i x old)] at held
      exact growDots d (grounded.closed i x old d held)
    · rw [new, held_new] at held
      exact growDots d held
  · intro j _ x member d held
    rw [held_old w i o fresh _ x (grounded.recorded j x member)] at held
    exact grounded.closed j x member d held

theorem generate_ordered (j : SiteId) :
    ((w.generate i o ⟨s, (w.site i).doc.append o⟩).site j).doc.policyLog.Pairwise
      (fun earlier later => later.dot ∉ (w.generate i o ⟨s, (w.site i).doc.append o⟩).held earlier.dot) := by
  have old : ∀ k, ∀ earlier ∈ (w.site k).doc.policyLog,
      (w.generate i o ⟨s, (w.site i).doc.append o⟩).held earlier.dot = w.held earlier.dot :=
    fun k earlier member => held_old w i o fresh _ (.policy earlier)
      (grounded.recorded k _ ((policy_mem_ops _ _).mpr member))
  have keep : ∀ k, (w.site k).doc.policyLog.Pairwise (fun earlier later =>
      later.dot ∉ (w.generate i o ⟨s, (w.site i).doc.append o⟩).held earlier.dot) := by
    intro k
    refine (grounded.ordered k).imp_of_mem fun {earlier later} member _ apart => ?_
    rwa [old k earlier member]
  refine generate_each w i o _ (fun _ site => site.doc.policyLog.Pairwise (fun earlier later =>
    later.dot ∉ (w.generate i o ⟨s, (w.site i).doc.append o⟩).held earlier.dot)) ?_ (fun j _ => keep j) j
  cases o with
  | document d => exact keep i
  | policy p =>
      refine List.pairwise_append.mpr ⟨keep i, by simp, ?_⟩
      intro earlier member later last held
      rw [List.mem_singleton.mp last, old i earlier member] at held
      obtain ⟨x, xIn, dot⟩ := held_recorded rank w grounded i (.policy earlier)
        ((policy_mem_ops _ _).mpr member) p.dot held
      exact fresh x xIn dot

variable (sound : Sound other s) (log : s.log = (w.site i).state.log ++ [o])

include sound log

omit fresh in
theorem generated_deps (a : Dot) (dep : a ∈ o.deps) :
    a ∈ (w.site i).doc.dots ∧ ∃ q, .policy q ∈ w.history ∧ q.tuple = o.tuple ∧ q.dot = a := by
  have inLog : o ∈ s.log := by simp [log]
  have found : ∃ q, .policy q ∈ s.log ∧ q.tuple = o.tuple ∧ q.dot = a := by
    cases o with
    | policy p => exact sound.deps p inLog a dep
    | document d => exact sound.docDeps d inLog a dep
  obtain ⟨q, qIn, tuple, rfl⟩ := found
  rw [log, List.mem_append, List.mem_singleton] at qIn
  have qOld : .policy q ∈ (w.site i).state.log := by
    rcases qIn with old | same
    · exact old
    · -- An op that depends on itself would be one above its own rank.
      have selfDep : q.dot ∈ q.deps := by
        rw [← same] at dep
        exact dep
      have step := sound.rankDep q (by simp [log, same]) q.dot selfDep
      omega
  have qDoc := grounded.logged i _ qOld
  exact ⟨List.mem_map.mpr ⟨_, qDoc, rfl⟩, q, grounded.recorded i _ qDoc, tuple, rfl⟩

theorem grounded_generate (faithful : Faithful (w.generate i o ⟨s, (w.site i).doc.append o⟩))
    (agree : ∀ x ∈ w.history, other x.dot = rank x.dot) :
    Grounded other (w.generate i o ⟨s, (w.site i).doc.append o⟩) := by
  have each := generate_each w i o ⟨s, (w.site i).doc.append o⟩
  have oldPolicy : ∀ p, .policy p ∈ w.history ++ [o] → .policy p ∈ w.history ∨ .policy p ∈ s.log := by
    intro p member
    rcases List.mem_append.mp member with old | new
    · exact Or.inl old
    · exact Or.inr (List.mem_singleton.mp new ▸ by simp [log])
  refine ⟨faithful, generate_closed rank w grounded i o s fresh,
    generate_ordered rank w grounded i o s fresh, ?_, ?_, ?_, ?_⟩
  · intro x member a xDep
    rcases List.mem_append.mp member with old | new
    · obtain ⟨held, q, qIn, tuple, dot⟩ := grounded.deps x old a xDep
      exact ⟨held_old w i o fresh _ x old ▸ held, q, List.mem_append_left _ qIn, tuple, dot⟩
    · rw [List.mem_singleton.mp new] at xDep ⊢
      obtain ⟨held, q, qIn, tuple, dot⟩ := generated_deps rank w grounded other i o s sound log a xDep
      exact ⟨held_new w i o _ ▸ held, q, List.mem_append_left _ qIn, tuple, dot⟩
  · intro p member empty
    rcases oldPolicy p member with old | new
    · exact (agree _ old).trans (grounded.rankRoot p old empty)
    · exact sound.rankRoot p new empty
  · intro p member a pDep
    rcases oldPolicy p member with old | new
    · obtain ⟨_, q, qIn, _, dot⟩ := grounded.deps _ old a pDep
      have pRank : other p.dot = rank p.dot := agree _ old
      have aRank : other a = rank a := dot ▸ agree _ qIn
      rw [pRank, aRank]
      exact grounded.rankDep p old a pDep
    · exact sound.rankDep p new a pDep
  · refine each (fun _ site => Sound other site.state) sound ?_
    exact fun j _ => sound_rerank rank other _ (grounded.sound j)
      (fun x member => agree x (log_recorded w grounded.toFaithful j x member))

end Generate

theorem grounded_policy (i target : SiteId) (right : Right) (effect : Effect)
    (faithful : Faithful (w.generate i (.policy (freshPolicy (w.site i).state target right effect))
      ⟨effectPolicy (w.site i).state.allocated (freshPolicy (w.site i).state target right effect),
        (w.site i).doc.append (.policy (freshPolicy (w.site i).state target right effect))⟩)) :
    ∃ other, (∀ x ∈ w.history, other x.dot = rank x.dot) ∧
      PolicyArrives other (w.site i).state.allocated (freshPolicy (w.site i).state target right effect) ∧
      Grounded other (w.generate i (.policy (freshPolicy (w.site i).state target right effect))
        ⟨effectPolicy (w.site i).state.allocated (freshPolicy (w.site i).state target right effect),
          (w.site i).doc.append (.policy (freshPolicy (w.site i).state target right effect))⟩) := by
  have dot : (freshPolicy (w.site i).state target right effect).dot = ⟨i, (w.site i).state.counter + 1⟩ := by
    rw [freshPolicy, grounded.me i]
  have fresh : ∀ x ∈ w.history, x.dot ≠ (freshPolicy (w.site i).state target right effect).dot :=
    fun x member => dot ▸ fresh_dot w grounded.toFaithful i x member
  generalize value : freshRank (w.site i).state ⟨target, right⟩ = level
  have agree : ∀ x ∈ w.history, Function.update rank (freshPolicy (w.site i).state target right effect).dot level x.dot =
      rank x.dot := fun x member => Function.update_of_ne (fresh x member) _ _
  have agreeLog : ∀ x ∈ (w.site i).state.log,
      Function.update rank (freshPolicy (w.site i).state target right effect).dot level x.dot = rank x.dot :=
    fun x member => agree x (log_recorded w grounded.toFaithful i x member)
  have arrives := fresh_policy_arrives rank (Function.update rank (freshPolicy (w.site i).state target right effect).dot level)
    (w.site i).state target right effect (grounded.sound i)
    (fun x member => fresh x (log_recorded w grounded.toFaithful i x member)) agreeLog
    ((Function.update_self _ _ _).trans value.symm)
  have sound := effect_policy_sound _ _ _ (sound_allocated _ _ (sound_rerank rank _ _ (grounded.sound i) agreeLog)) arrives
  refine ⟨_, agree, arrives, grounded_generate rank w grounded _ i _ _ fresh sound ?_ faithful agree⟩
  rw [effect_policy_log, allocated_log]

theorem grounded_document (i : SiteId) (edit : TextEdit)
    (faithful : Faithful (w.generate i (.document (freshDocument (w.site i).state edit))
      ⟨effectDocument (w.site i).state.allocated (freshDocument (w.site i).state edit),
        (w.site i).doc.append (.document (freshDocument (w.site i).state edit))⟩)) :
    DocumentArrives (w.site i).state.allocated (freshDocument (w.site i).state edit) ∧
      Grounded rank (w.generate i (.document (freshDocument (w.site i).state edit))
        ⟨effectDocument (w.site i).state.allocated (freshDocument (w.site i).state edit),
          (w.site i).doc.append (.document (freshDocument (w.site i).state edit))⟩) := by
  have dot : (freshDocument (w.site i).state edit).dot = ⟨i, (w.site i).state.counter + 1⟩ := by
    rw [freshDocument, grounded.me i]
  have fresh : ∀ x ∈ w.history, x.dot ≠ (freshDocument (w.site i).state edit).dot :=
    fun x member => dot ▸ fresh_dot w grounded.toFaithful i x member
  have arrives := fresh_document_arrives rank (w.site i).state edit (grounded.sound i)
    (fun x member => fresh x (log_recorded w grounded.toFaithful i x member))
  have sound := effect_document_sound rank _ _ (sound_allocated rank _ (grounded.sound i)) arrives
  refine ⟨arrives, grounded_generate rank w grounded rank i _ _ fresh sound ?_ faithful (fun _ _ => rfl)⟩
  rw [effect_document_log, allocated_log]

theorem grounded_sync (i j : SiteId) (merged : Doc) (sync : CausalSync w (w.site i).doc (w.site j).doc merged) :
    Grounded rank (w.put i ⟨(w.site i).state, merged⟩) := by
  have faithful := faithful_sync w grounded.toFaithful CausalSync (fun _ _ _ causal => causal.toDelivered) i j merged sync
  have each := put_each w i ⟨(w.site i).state, merged⟩
  refine ⟨faithful, ?_, ?_, grounded.deps, grounded.rankRoot, grounded.rankDep, ?_⟩
  · exact each (fun _ site => ∀ o ∈ site.doc.ops, ∀ d ∈ w.held o.dot, d ∈ site.doc.dots) sync.causal
      (fun k _ => grounded.closed k)
  · exact each (fun _ site => site.doc.policyLog.Pairwise (fun earlier later => later.dot ∉ w.held earlier.dot))
      sync.policyOrder (fun k _ => grounded.ordered k)
  · exact each (fun _ site => Sound rank site.state) (grounded.sound i) (fun k _ => grounded.sound k)

theorem grounded_rebuild (i : SiteId) :
    Grounded rank (w.put i ⟨(rebuildFromAutomerge (w.site i).state (w.site i).doc).1, (w.site i).doc⟩) := by
  have faithful := faithful_rebuild w grounded.toFaithful i
  have sound := rebuild_sound rank _ _ (replayable rank w grounded i)
  generalize (rebuildFromAutomerge (w.site i).state (w.site i).doc).1 = s at faithful sound ⊢
  have each := put_each w i ⟨s, (w.site i).doc⟩
  refine ⟨faithful, ?_, ?_, grounded.deps, grounded.rankRoot, grounded.rankDep, ?_⟩
  · exact each (fun _ site => ∀ o ∈ site.doc.ops, ∀ d ∈ w.held o.dot, d ∈ site.doc.dots) (grounded.closed i)
      (fun k _ => grounded.closed k)
  · exact each (fun _ site => site.doc.policyLog.Pairwise (fun earlier later => later.dot ∉ w.held earlier.dot))
      (grounded.ordered i) (fun k _ => grounded.ordered k)
  · exact each (fun _ site => Sound rank site.state) sound (fun k _ => grounded.sound k)

theorem grounded_step (next : World) (step : Step CausalSync w next) :
    ∃ other, (∀ o ∈ w.history, other o.dot = rank o.dot) ∧ Grounded other next := by
  have faithful := faithful_step CausalSync (fun _ _ _ _ sync => sync.toDelivered) w next grounded.toFaithful step
  cases step with
  | updatePolicy i target right effect p s doc ok =>
      obtain ⟨_, rfl, rfl, rfl⟩ := (update_policy_ok _ _ _ _ _ _ _ _).mp ok
      obtain ⟨other, agree, _, after⟩ := grounded_policy rank w grounded i target right effect faithful
      exact ⟨other, agree, after⟩
  | updateDocument i edit d s doc ok =>
      obtain ⟨_, rfl, rfl, rfl⟩ := (update_document_ok _ _ _ _ _ _).mp ok
      exact ⟨rank, fun _ _ => rfl, (grounded_document rank w grounded i edit faithful).2⟩
  | sync i j merged sync => exact ⟨rank, fun _ _ => rfl, grounded_sync rank w grounded i j merged sync⟩
  | rebuild i => exact ⟨rank, fun _ _ => rfl, grounded_rebuild rank w grounded i⟩

end Step

theorem strategies_step (rule : SyncRule) (w next : World) (step : Step rule w next) (j : SiteId) :
    (next.site j).state.strategy = (w.site j).state.strategy := by
  cases step with
  | updatePolicy i target right effect p s doc ok =>
      obtain ⟨_, rfl, rfl, rfl⟩ := (update_policy_ok _ _ _ _ _ _ _ _).mp ok
      refine generate_each w i _ _ (fun j site => site.state.strategy = (w.site j).state.strategy) ?_ (fun _ _ => rfl) j
      rw [effect_policy_strategy, allocated_strategy]
  | updateDocument i edit d s doc ok =>
      obtain ⟨_, rfl, rfl, rfl⟩ := (update_document_ok _ _ _ _ _ _).mp ok
      refine generate_each w i _ _ (fun j site => site.state.strategy = (w.site j).state.strategy) ?_ (fun _ _ => rfl) j
      rw [effect_document_strategy, allocated_strategy]
  | sync i k merged delivered =>
      exact put_each w i ⟨(w.site i).state, merged⟩ (fun j site => site.state.strategy = (w.site j).state.strategy) rfl
        (fun _ _ => rfl) j
  | rebuild i =>
      refine put_each w i _ (fun j site => site.state.strategy = (w.site j).state.strategy) ?_ (fun _ _ => rfl) j
      obtain ⟨v, state⟩ := rebuild_state (w.site i).state (w.site i).doc
      rw [state]
      exact integrated_strategy _ _

theorem strategies_run (rule : SyncRule) (strategies : SiteId → Strategy) (w : World) (run : Reachable rule strategies w)
    (i : SiteId) : (w.site i).state.strategy = strategies i := by
  refine reachable_invariant rule strategies (fun w => (w.site i).state.strategy = strategies i) rfl ?_ w run
  exact fun w next same step => (strategies_step rule w next step i).trans same

theorem policy_generated (rank : Dot → Nat) (strategy : Strategy) (w : World) (causal : Causal rank strategy w)
    (i target : SiteId) (right : Right) (effect : Effect) (p : PolicyOp) (s : State) (doc : Doc)
    (ok : updatePolicy (w.site i).state (w.site i).doc target right effect = .ok (p, s, doc)) :
    ∃ other, p = freshPolicy (w.site i).state target right effect ∧ s = effectPolicy (w.site i).state.allocated p ∧
      Sound other (w.site i).state ∧ PolicyArrives other (w.site i).state.allocated p ∧
      Causal other strategy (w.generate i (.policy p) ⟨s, doc⟩) := by
  have step : Step CausalSync w _ := .updatePolicy w i target right effect p s doc ok
  have faithful := faithful_step CausalSync (fun _ _ _ _ sync => sync.toDelivered) w _ causal.toFaithful step
  have strategies := fun j => (strategies_step CausalSync w _ step j).trans (causal.strategies j)
  obtain ⟨_, rfl, rfl, rfl⟩ := (update_policy_ok _ _ _ _ _ _ _ _).mp ok
  obtain ⟨other, agree, arrives, after⟩ := grounded_policy rank w causal.toGrounded i target right
    effect faithful
  have sound := sound_rerank rank other _ (causal.sound i)
    (fun o member => agree o (log_recorded w causal.toFaithful i o member))
  exact ⟨other, rfl, rfl, sound, arrives, ⟨after, strategies⟩⟩

theorem grounded_init (strategies : SiteId → Strategy) : Grounded (fun _ => 0) (World.init strategies) := by
  have empty : ∀ i o, o ∉ ((World.init strategies).site i).doc.ops := by
    simp [World.init, Site.start, newStateFromBytes, newSharedDoc, Doc.ops]
  have start : ∀ o, o ∉ (World.init strategies).history := fun _ => List.not_mem_nil
  refine ⟨faithful_init _, ?_, fun _ => List.Pairwise.nil, ?_, ?_, ?_, fun i => initial_sound _ i (strategies i)⟩
  · exact fun i o member => absurd member (empty i o)
  · exact fun o member => absurd member (start o)
  · exact fun p member => absurd member (start _)
  · exact fun p member => absurd member (start _)

theorem grounded_run (strategies : SiteId → Strategy) (w : World) (run : Reachable CausalSync strategies w) :
    ∃ rank, Grounded rank w := by
  refine reachable_invariant CausalSync _ (fun w => ∃ rank, Grounded rank w) ⟨_, grounded_init strategies⟩ ?_ w run
  rintro w next ⟨rank, grounded⟩ step
  obtain ⟨other, _, after⟩ := grounded_step rank w grounded next step
  exact ⟨other, after⟩

theorem causal_run (strategy : Strategy) (w : World) (run : CausalRun strategy w) : ∃ rank, Causal rank strategy w := by
  obtain ⟨rank, grounded⟩ := grounded_run _ w run
  exact ⟨rank, grounded, strategies_run CausalSync _ w run⟩

end Accure
