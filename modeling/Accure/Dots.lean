import Accure.Faithful

set_option autoImplicit false

namespace Accure

-- Dots identify ops, and a site's log is an image of its lists.
structure DotsFaithful (w : World) : Prop where
  policyFresh : ∀ i target right effect p s doc,
    updatePolicy (w.site i).state (w.site i).doc target right effect = .ok (p, s, doc) → ∀ o ∈ w.history, o.dot ≠ p.dot
  documentFresh : ∀ i edit d s doc,
    updateDocument (w.site i).state (w.site i).doc edit = .ok (d, s, doc) → ∀ o ∈ w.history, o.dot ≠ d.dot
  consecutive : ∀ i, ((w.history.map Operation.dot).filter (fun d => d.site = i)).map Dot.n =
    List.range' 1 ((w.history.map Operation.dot).filter (fun d => d.site = i)).length
  listed : ∀ i, ∀ o ∈ (w.site i).state.log, o ∈ (w.site i).doc.ops
  rebuilt : ∀ i, (w.site i).doc.ops.Nodup ∧
    (rebuildFromAutomerge (w.site i).state (w.site i).doc).1.log.Perm (w.site i).doc.ops
  received : ∀ i, (rebuildFromAutomerge (w.site i).state (w.site i).doc).2.filterMap Trace.asReceived =
    (w.site i).doc.ops.filter (fun o => o ∉ (w.site i).state.log)

theorem dots_faithful (strategies : SiteId → Strategy) (w : World) (run : Reachable Delivered strategies w) :
    DotsFaithful w := by
  have faithful := faithful_run Delivered (fun _ _ _ _ delivered => delivered) strategies w run
  constructor
  · intro i target right effect p s doc ok o member
    obtain ⟨_, rfl, _, _⟩ := (update_policy_ok _ _ _ _ _ _ _ _).mp ok
    rw [freshPolicy, faithful.me i]
    exact fresh_dot w faithful i o member
  · intro i edit d s doc ok o member
    obtain ⟨_, rfl, _, _⟩ := (update_document_ok _ _ _ _ _ _).mp ok
    rw [freshDocument, faithful.me i]
    exact fresh_dot w faithful i o member
  · intro i
    have numbered := faithful.numbered i
    have count := congrArg List.length numbered
    rw [List.length_map, List.length_range'] at count
    rw [count, numbered]
  · exact faithful.logged
  · intro i
    exact ⟨(faithful.once i).of_map, rebuild_perm _ _ (faithful.once i) (faithful.logged i) (faithful.distinct i)⟩
  · intro i
    rw [rebuild_received, received_eq _ _ (faithful.once i) (faithful.logged i)]

def exchange : List Action :=
  [.policy "A" "B" .write .allow, .document "A" (.insert 0 'a'), .document "B" (.insert 0 'b'),
    .policy "B" "A" .read .deny, .sync "A" "B" [⟨"A", 1⟩, ⟨"A", 2⟩, ⟨"B", 1⟩, ⟨"B", 2⟩], .rebuild "A"]

theorem exchange_runs : (play .integrity exchange).isSome = true := by decide +kernel

def exchanged : World := (play .integrity exchange).get exchange_runs

theorem exchanged_dots_faithful : DotsFaithful exchanged ∧
    (exchanged.site "A").state.log.map Operation.dot = [⟨"A", 1⟩, ⟨"A", 2⟩, ⟨"B", 2⟩, ⟨"B", 1⟩] :=
  ⟨dots_faithful (fun _ => .integrity) exchanged
    (reachable_mono Delivered CausalSync (fun _ _ _ _ sync => sync.toDelivered) _ _ (played .integrity exchange exchange_runs)),
    by decide +kernel⟩

end Accure
