import Accure.Meaning

set_option autoImplicit false

namespace Accure

-- No policy op of the state meets an opposite one that neither knows of.
def Unopposed (s : State) : Prop := ∀ p ∈ s.policies, conflicts s p (s.dagAt p.tuple) = []

instance (s : State) : Decidable (Unopposed s) :=
  inferInstanceAs (Decidable (∀ p ∈ s.policies, conflicts s p (s.dagAt p.tuple) = []))

section Calm

variable (rank : Dot → Nat) (s : State) (sound : Sound rank s) (unopposed : Unopposed s)

include sound unopposed

theorem unopposed_calm (t : AccessTuple) : (s.graph t).Calm := by
  intro x xIn y yIn concurrent
  obtain ⟨p, pIn, pTuple, rfl⟩ := (sound.nodes t x).mp xIn
  obtain ⟨q, qIn, qTuple, rfl⟩ := (sound.nodes t y).mp yIn
  have same : q.effect = p.effect := by
    by_contra different
    have listed : q ∈ conflicts s p (s.dagAt p.tuple) := by
      rw [mem_conflicts rank s sound.wired p p.tuple q]
      exact ⟨⟨qIn, qTuple.trans pTuple.symm⟩, pTuple ▸ concurrent, different⟩
    rw [unopposed p ((mem_state_policies s p).mpr pIn)] at listed
    exact absurd listed List.not_mem_nil
  rw [wins_of_tuple rank s sound t p pIn pTuple, wins_of_tuple rank s sound t q qIn qTuple, same]

theorem unopposed_marked (p : PolicyOp) (member : .policy p ∈ s.log) : s.Marked p.dot := by
  have node := (sound.nodes p.tuple p.dot).mpr ⟨p, member, rfl, rfl⟩
  exact Conflict.calm_valid (s.graph p.tuple) rank (graph_ranked rank s sound.wired p.tuple)
    (unopposed_calm rank s sound unopposed p.tuple) s.Marked (graph_settled rank s sound.steady p.tuple)
    (rank p.dot + 1) p.dot node (Nat.lt_succ_self _)

end Calm

theorem grants_strategy (strategy other : Strategy) (ops : Set Operation) (t : AccessTuple) (candidates : Set Dot)
    (allows : Dot → Prop) : (opGraph strategy ops t).Grants candidates allows ↔
      (opGraph other ops t).Grants candidates allows := Conflict.grants_wins _ _ _ _ candidates allows

theorem sound_same_ops (rank other : Dot → Nat) (s u : State) (sound : Sound rank s) (uSound : Sound other u)
    (same : ∀ o, o ∈ u.log ↔ o ∈ s.log) : Sound rank u := by
  refine ⟨⟨uSound.nodup, uSound.nodes, uSound.parents, uSound.deps, uSound.docDeps, uSound.ordered, ?_, ?_⟩,
    uSound.settled, uSound.domain⟩
  · exact fun p member => sound.rankRoot p ((same _).mp member)
  · exact fun p member => sound.rankDep p ((same _).mp member)

section Agreement

variable (rank : Dot → Nat) (s u : State) (sound : Sound rank s) (uSound : Sound rank u)
variable (same : ∀ o, o ∈ u.log ↔ o ∈ s.log) (unopposed : Unopposed s)

include sound uSound same unopposed

theorem unopposed_same : Unopposed u := by
  intro p member
  rw [mem_state_policies, same] at member
  have here := unopposed p ((mem_state_policies s p).mpr member)
  rw [conflicts] at here ⊢
  simp only [same_policy_op rank s u sound.resolved uSound.resolved same,
    same_dag rank s u sound.resolved uSound.resolved same]
  exact here

theorem calm_candidates (t : AccessTuple) (considers : PolicyOp → Bool) :
    (State.reading rank u uSound).candidates t considers = (State.reading rank s sound).candidates t considers := by
  have marked := unopposed_marked rank s sound unopposed
  have uMarked := unopposed_marked rank u uSound (unopposed_same rank s u sound uSound same unopposed)
  ext x
  constructor
  · rintro ⟨p, member, tuple, rfl, _, considered⟩
    exact ⟨p, (same _).mp member, tuple, rfl, marked p ((same _).mp member), considered⟩
  · rintro ⟨p, member, tuple, rfl, _, considered⟩
    exact ⟨p, (same _).mpr member, tuple, rfl, uMarked p ((same _).mpr member), considered⟩

theorem calm_grants (t : AccessTuple) (considers : PolicyOp → Bool) :
    (opGraph u.strategy u.ops t).Grants ((State.reading rank u uSound).candidates t considers) (allowing u.ops) ↔
      (opGraph s.strategy s.ops t).Grants ((State.reading rank s sound).candidates t considers) (allowing s.ops) := by
  have ops : u.ops = s.ops := Set.ext same
  rw [calm_candidates rank s u sound uSound same unopposed, ops]
  exact grants_strategy u.strategy s.strategy s.ops t _ _

theorem calm_shown (d : DocOp) (member : .document d ∈ s.log) : u.valid d.dot = s.valid d.dot := by
  have marked := unopposed_marked rank s sound unopposed
  have uMarked := unopposed_marked rank u uSound (unopposed_same rank s u sound uSound same unopposed)
  have uMember := (same _).mpr member
  have flags : u.valid d.dot = some true ↔ s.valid d.dot = some true := by
    rw [reading_shown rank u uSound d uMember, reading_shown rank s sound d member, Reading.Shown, Reading.Shown,
      calm_grants rank s u sound uSound same unopposed]
    have policy : ∀ a ∈ d.deps, ∃ q, .policy q ∈ s.log ∧ q.dot = a := by
      intro a dep
      obtain ⟨q, qIn, _, dot⟩ := sound.docDeps d member a dep
      exact ⟨q, qIn, dot⟩
    have accepted : ∀ a ∈ d.deps, s.Marked a ∧ u.Marked a := by
      intro a dep
      obtain ⟨q, qIn, rfl⟩ := policy a dep
      exact ⟨marked q qIn, uMarked q ((same _).mpr qIn)⟩
    exact ⟨fun all => ⟨member, fun a dep => (accepted a dep).1, all.2.2⟩,
      fun all => ⟨uMember, fun a dep => (accepted a dep).2, all.2.2⟩⟩
  have left := uSound.settled _ uMember
  have right := sound.settled _ member
  rw [dot_document] at left right
  rw [left, right, Option.some.injEq, Option.some.injEq] at flags
  rw [left, right, Bool.eq_iff_iff.mpr flags]

theorem calm_agree : Agree s u := by
  have uUnopposed := unopposed_same rank s u sound uSound same unopposed
  have valid : u.valid = s.valid := by
    funext d
    by_cases present : ∃ o ∈ s.log, o.dot = d
    · obtain ⟨o, member, rfl⟩ := present
      cases o with
      | policy p =>
          rw [dot_policy, settled_value rank s sound.steady p member,
            settled_value rank u uSound.steady p ((same _).mpr member),
            unopposed_marked rank s sound unopposed p member,
            unopposed_marked rank u uSound uUnopposed p ((same _).mpr member)]
      | document d => exact calm_shown rank s u sound uSound same unopposed d member
    · have absent : ∀ o ∈ s.log, o.dot ≠ d := fun o member dot => present ⟨o, member, dot⟩
      rw [unmarked_of_absent s sound.domain d absent,
        unmarked_of_absent u uSound.domain d (fun o member => absent o ((same o).mp member))]
  refine ⟨valid, ?_, ?_⟩
  · intro site right
    rw [Bool.eq_iff_iff]
    have own := (own_reading rank s sound).rights ⟨site, right⟩
    have uOwn := (own_reading rank u uSound).rights ⟨site, right⟩
    exact uOwn.trans ((calm_grants rank s u sound uSound same unopposed ⟨site, right⟩ _).trans own.symm)
  · apply render_text_congr _ _ _ _ (doc_dots_nodup _ uSound.nodup) (doc_dots_nodup _ sound.nodup)
    intro d
    rw [same, valid]

end Agreement

theorem unopposed_sites_agree (strategies others : SiteId → Strategy) (w u : World)
    (run : Reachable CausalSync strategies w) (other : Reachable CausalSync others u) (i j : SiteId)
    (same : ∀ o, o ∈ (u.site j).state.log ↔ o ∈ (w.site i).state.log) (unopposed : Unopposed (w.site i).state) :
    Agree (w.site i).state (u.site j).state ∧
      ∀ p, .policy p ∈ (w.site i).state.log → (w.site i).state.valid p.dot = some true := by
  obtain ⟨rank, grounded⟩ := grounded_run strategies w run
  obtain ⟨rival, otherGrounded⟩ := grounded_run others u other
  have sound := grounded.sound i
  have uSound := sound_same_ops rank rival _ _ sound (otherGrounded.sound j) same
  refine ⟨calm_agree rank _ _ sound uSound same unopposed, ?_⟩
  intro p member
  rw [settled_value rank _ sound.steady p member, unopposed_marked rank _ sound unopposed p member]

def reconsidered : List Action :=
  [.document "B" (.insert 0 'b'), .policy "A" "B" .write .deny, .sync "A" "B" [⟨"A", 1⟩, ⟨"B", 1⟩], .rebuild "A",
    .policy "A" "B" .write .allow]

theorem reconsidered_runs : (play .integrity reconsidered).isSome = true ∧ (play .accessibility reconsidered).isSome = true := by
  decide +kernel

theorem reconsidered_agree :
    Agree (((play .integrity reconsidered).get reconsidered_runs.1).site "A").state
      (((play .accessibility reconsidered).get reconsidered_runs.2).site "A").state := by
  have inside : (∀ o ∈ (((play .accessibility reconsidered).get reconsidered_runs.2).site "A").state.log,
        o ∈ (((play .integrity reconsidered).get reconsidered_runs.1).site "A").state.log) ∧
      ∀ o ∈ (((play .integrity reconsidered).get reconsidered_runs.1).site "A").state.log,
        o ∈ (((play .accessibility reconsidered).get reconsidered_runs.2).site "A").state.log := by decide +kernel
  exact (unopposed_sites_agree (fun _ => .integrity) (fun _ => .accessibility) _ _
    (played .integrity reconsidered reconsidered_runs.1) (played .accessibility reconsidered reconsidered_runs.2) "A" "A"
    (fun o => ⟨inside.1 o, inside.2 o⟩) (by decide +kernel)).1

end Accure
