import Accure.Integrate

set_option autoImplicit false

namespace Accure

def Doc.ops (doc : Doc) : List Operation := doc.policyLog.map .policy ++ doc.docLog.map .document

def Doc.dots (doc : Doc) : List Dot := doc.ops.map Operation.dot

def Doc.append (doc : Doc) : Operation → Doc
  | .policy p => { doc with policyLog := doc.policyLog ++ [p] }
  | .document d => { doc with docLog := doc.docLog ++ [d] }

theorem mem_doc_append (doc : Doc) (o x : Operation) : x ∈ (doc.append o).ops ↔ x ∈ doc.ops ∨ x = o := by
  cases o <;> simp only [Doc.append, Doc.ops, List.map_append, List.mem_append, List.map_cons, List.map_nil,
    List.mem_singleton] <;> tauto

structure Site where
  state : State
  doc : Doc

-- Every string is the id of a site: a run of fewer sites is one in which the
-- others do nothing. The last two fields are ghost: all ops generated so far,
-- and for each the entries its author's lists held when it was appended.
structure World where
  site : SiteId → Site
  history : List Operation
  held : Dot → List Dot

def Site.start (me : SiteId) (strategy : Strategy) : Site :=
  let (s, doc) := newStateFromBytes me strategy newSharedDoc
  ⟨s, doc⟩

def World.init (strategies : SiteId → Strategy) : World where
  site i := Site.start i (strategies i)
  history := []
  held := fun _ => []

def World.put (w : World) (i : SiteId) (site : Site) : World := { w with site := Function.update w.site i site }

def World.generate (w : World) (i : SiteId) (o : Operation) (site : Site) : World where
  site := Function.update w.site i site
  history := w.history ++ [o]
  held := Function.update w.held o.dot (w.site i).doc.dots

@[simp] theorem generate_here (w : World) (i : SiteId) (o : Operation) (site : Site) :
    (w.generate i o site).site i = site := Function.update_self _ _ _

theorem put_each (w : World) (i : SiteId) (site : Site) (holds : SiteId → Site → Prop) (here : holds i site)
    (elsewhere : ∀ j, j ≠ i → holds j (w.site j)) (j : SiteId) : holds j ((w.put i site).site j) :=
  (Function.forall_update_iff w.site holds).mpr ⟨here, elsewhere⟩ j

theorem generate_each (w : World) (i : SiteId) (o : Operation) (site : Site) (holds : SiteId → Site → Prop)
    (here : holds i site) (elsewhere : ∀ j, j ≠ i → holds j (w.site j)) (j : SiteId) :
    holds j ((w.generate i o site).site j) :=
  (Function.forall_update_iff w.site holds).mpr ⟨here, elsewhere⟩ j

-- What a sync may leave in a site's lists: its own entries and some of the
-- other's, each once, and none without the entries its author's lists held.
structure Delivered (w : World) (own other merged : Doc) : Prop where
  kept : ∀ o ∈ own.ops, o ∈ merged.ops
  known : ∀ o ∈ merged.ops, o ∈ own.ops ∨ o ∈ other.ops
  once : merged.dots.Nodup
  causal : ∀ o ∈ merged.ops, ∀ d ∈ w.held o.dot, d ∈ merged.dots

structure CausalSync (w : World) (own other merged : Doc) : Prop extends Delivered w own other merged where
  policyOrder : merged.policyLog.Pairwise (fun earlier later => later.dot ∉ w.held earlier.dot)
  docOrder : merged.docLog.Pairwise (fun earlier later => later.dot ∉ w.held earlier.dot)

instance (w : World) (own other merged : Doc) : Decidable (Delivered w own other merged) :=
  decidable_of_iff ((∀ o ∈ own.ops, o ∈ merged.ops) ∧ (∀ o ∈ merged.ops, o ∈ own.ops ∨ o ∈ other.ops) ∧
      merged.dots.Nodup ∧ ∀ o ∈ merged.ops, ∀ d ∈ w.held o.dot, d ∈ merged.dots)
    ⟨fun all => ⟨all.1, all.2.1, all.2.2.1, all.2.2.2⟩, fun sync => ⟨sync.kept, sync.known, sync.once, sync.causal⟩⟩

instance (w : World) (own other merged : Doc) : Decidable (CausalSync w own other merged) :=
  decidable_of_iff (Delivered w own other merged ∧
      merged.policyLog.Pairwise (fun earlier later => later.dot ∉ w.held earlier.dot) ∧
      merged.docLog.Pairwise (fun earlier later => later.dot ∉ w.held earlier.dot))
    ⟨fun all => ⟨all.1, all.2.1, all.2.2⟩, fun sync => ⟨sync.toDelivered, sync.policyOrder, sync.docOrder⟩⟩

abbrev SyncRule := World → Doc → Doc → Doc → Prop

-- An update that returns an error changes nothing, so it is no step.
inductive Step (rule : SyncRule) : World → World → Prop where
  | updatePolicy (w : World) (i target : SiteId) (right : Right) (effect : Effect) (p : PolicyOp) (s : State) (doc : Doc)
      (ok : updatePolicy (w.site i).state (w.site i).doc target right effect = .ok (p, s, doc)) :
      Step rule w (w.generate i (.policy p) ⟨s, doc⟩)
  | updateDocument (w : World) (i : SiteId) (edit : TextEdit) (d : DocOp) (s : State) (doc : Doc)
      (ok : updateDocument (w.site i).state (w.site i).doc edit = .ok (d, s, doc)) :
      Step rule w (w.generate i (.document d) ⟨s, doc⟩)
  | sync (w : World) (i j : SiteId) (merged : Doc) (delivered : rule w (w.site i).doc (w.site j).doc merged) :
      Step rule w (w.put i ⟨(w.site i).state, merged⟩)
  | rebuild (w : World) (i : SiteId) :
      Step rule w (w.put i ⟨(rebuildFromAutomerge (w.site i).state (w.site i).doc).1, (w.site i).doc⟩)

inductive Reachable (rule : SyncRule) (strategies : SiteId → Strategy) : World → Prop where
  | init : Reachable rule strategies (World.init strategies)
  | step (w next : World) (before : Reachable rule strategies w) (step : Step rule w next) :
      Reachable rule strategies next

def CausalRun (strategy : Strategy) (w : World) : Prop := Reachable CausalSync (fun _ => strategy) w

theorem reachable_mono (weak strong : SyncRule) (implies : ∀ w own other merged, strong w own other merged →
    weak w own other merged) (strategies : SiteId → Strategy) (w : World) (run : Reachable strong strategies w) :
    Reachable weak strategies w := by
  induction run with
  | init => exact .init
  | step w next _ step ih =>
      apply Reachable.step w next ih
      cases step with
      | updatePolicy i target right effect p s doc ok => exact .updatePolicy w i target right effect p s doc ok
      | updateDocument i edit d s doc ok => exact .updateDocument w i edit d s doc ok
      | sync i j merged delivered => exact .sync w i j merged (implies _ _ _ _ delivered)
      | rebuild i => exact .rebuild w i

theorem reachable_invariant (rule : SyncRule) (strategies : SiteId → Strategy) (holds : World → Prop)
    (start : holds (World.init strategies)) (keeps : ∀ w next, holds w → Step rule w next → holds next)
    (w : World) (run : Reachable rule strategies w) : holds w := by
  induction run with
  | init => exact start
  | step w next _ step ih => exact keeps w next ih step

inductive Action where
  | policy (site target : SiteId) (right : Right) (effect : Effect)
  | document (site : SiteId) (edit : TextEdit)
  | sync (site other : SiteId) (order : List Dot)
  | rebuild (site : SiteId)
deriving DecidableEq, Repr

def Doc.pick (own other : Doc) (order : List Dot) : Doc where
  policyLog := order.filterMap fun d => (own.policyLog ++ other.policyLog).find? (fun p => p.dot = d)
  docLog := order.filterMap fun d => (own.docLog ++ other.docLog).find? (fun e => e.dot = d)

def World.act (w : World) : Action → Option World
  | .policy i target right effect =>
      match updatePolicy (w.site i).state (w.site i).doc target right effect with
      | .ok (p, s, doc) => some (w.generate i (.policy p) ⟨s, doc⟩)
      | .error _ => none
  | .document i edit =>
      match updateDocument (w.site i).state (w.site i).doc edit with
      | .ok (d, s, doc) => some (w.generate i (.document d) ⟨s, doc⟩)
      | .error _ => none
  | .sync i j order =>
      let merged := Doc.pick (w.site i).doc (w.site j).doc order
      if CausalSync w (w.site i).doc (w.site j).doc merged then some (w.put i ⟨(w.site i).state, merged⟩) else none
  | .rebuild i => some (w.put i ⟨(rebuildFromAutomerge (w.site i).state (w.site i).doc).1, (w.site i).doc⟩)

def World.play (w : World) : List Action → Option World
  | [] => some w
  | action :: rest => (w.act action).bind (fun next => next.play rest)

def play (strategy : Strategy) (actions : List Action) : Option World := (World.init (fun _ => strategy)).play actions

theorem act_step (w next : World) (action : Action) (done : w.act action = some next) : Step CausalSync w next := by
  cases action with
  | policy i target right effect =>
      rw [World.act] at done
      split at done
      next p s doc ok =>
        cases done
        exact .updatePolicy w i target right effect p s doc ok
      next => cases done
  | document i edit =>
      rw [World.act] at done
      split at done
      next d s doc ok =>
        cases done
        exact .updateDocument w i edit d s doc ok
      next => cases done
  | sync i j order =>
      rw [World.act] at done
      split at done
      next delivered =>
        cases done
        exact .sync w i j _ delivered
      next => cases done
  | rebuild i =>
      cases done
      exact .rebuild w i

theorem play_reachable (strategies : SiteId → Strategy) (actions : List Action) (w last : World)
    (run : Reachable CausalSync strategies w) (done : w.play actions = some last) :
    Reachable CausalSync strategies last := by
  induction actions generalizing w with
  | nil =>
      cases done
      exact run
  | cons action rest ih =>
      rw [World.play, Option.bind_eq_some_iff] at done
      obtain ⟨next, acted, played⟩ := done
      exact ih next (.step w next run (act_step w next action acted)) played

theorem played (strategy : Strategy) (actions : List Action) (whole : (play strategy actions).isSome = true) :
    CausalRun strategy ((play strategy actions).get whole) :=
  play_reachable _ actions _ _ .init (Option.some_get whole).symm

end Accure
