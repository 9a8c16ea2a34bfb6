import Accure.Convergence
import Accure.Idempotent
import Accure.Library.Verdict
import Accure.Sessions

set_option autoImplicit false

namespace Accure

structure InOrder (held : Dot → List Dot) (doc : Doc) : Prop where
  once : doc.dots.Nodup
  closed : ∀ o ∈ doc.ops, ∀ d ∈ held o.dot, d ∈ doc.dots
  policyOrder : doc.policyLog.Pairwise (fun earlier later => later.dot ∉ held earlier.dot)
  docOrder : doc.docLog.Pairwise (fun earlier later => later.dot ∉ held earlier.dot)

def Doc.filter (doc : Doc) (keep : Operation → Bool) : Doc where
  policyLog := doc.policyLog.filter (fun p => keep (.policy p))
  docLog := doc.docLog.filter (fun d => keep (.document d))

theorem filter_ops (doc : Doc) (keep : Operation → Bool) : (doc.filter keep).ops = doc.ops.filter keep := by
  rw [Doc.ops, Doc.ops, List.filter_append, List.filter_map, List.filter_map]
  rfl

theorem mem_filter_ops (doc : Doc) (keep : Operation → Bool) (o : Operation) :
    o ∈ (doc.filter keep).ops ↔ o ∈ doc.ops ∧ keep o = true := by rw [filter_ops, List.mem_filter]

theorem world_put_here (w : World) (i : SiteId) (site : Site) : (w.put i site).site i = site :=
  Function.update_self _ _ _

theorem world_put_elsewhere (w : World) (i j : SiteId) (site : Site) (apart : j ≠ i) :
    (w.put i site).site j = w.site j := Function.update_of_ne apart _ _

theorem world_put_twice (w : World) (i : SiteId) (a b : Site) : (w.put i a).put i b = w.put i b := by
  rw [World.put, World.put, World.put, Function.update_idem]

def Doc.join (front back : Doc) : Doc := ⟨front.policyLog ++ back.policyLog, front.docLog ++ back.docLog⟩

theorem join_ops (front back : Doc) : (Doc.join front back).ops.Perm (front.ops ++ back.ops) := by
  simp only [Doc.join, Doc.ops, List.map_append, List.append_assoc]
  refine List.Perm.append_left _ ?_
  rw [← List.append_assoc, ← List.append_assoc]
  exact List.Perm.append_right _ List.perm_append_comm

theorem in_order_join (held : Dot → List Dot) (front back : Doc) (inOrder : InOrder held front)
    (once : back.dots.Nodup) (apart : ∀ x ∈ front.ops, ∀ y ∈ back.ops, x.dot ≠ y.dot)
    (closed : ∀ o ∈ back.ops, ∀ d ∈ held o.dot, d ∈ front.dots ∨ d ∈ back.dots)
    (policyOrder : back.policyLog.Pairwise (fun earlier later => later.dot ∉ held earlier.dot))
    (docOrder : back.docLog.Pairwise (fun earlier later => later.dot ∉ held earlier.dot)) :
    InOrder held (Doc.join front back) := by
  have perm : (Doc.join front back).dots.Perm (front.dots ++ back.dots) := by
    rw [Doc.dots, Doc.dots, Doc.dots, ← List.map_append]
    exact (join_ops front back).map _
  have notBefore : ∀ x ∈ front.ops, ∀ y ∈ back.ops, y.dot ∉ held x.dot := by
    intro x xIn y yIn past
    obtain ⟨z, zIn, dot⟩ := List.mem_map.mp (inOrder.closed x xIn y.dot past)
    exact apart z zIn y yIn dot
  refine ⟨?_, ?_, ?_, ?_⟩
  · rw [perm.nodup_iff, List.nodup_append]
    refine ⟨inOrder.once, once, ?_⟩
    intro d first e second same
    obtain ⟨x, xIn, xDot⟩ := List.mem_map.mp first
    obtain ⟨y, yIn, yDot⟩ := List.mem_map.mp second
    exact apart x xIn y yIn (xDot.trans (same.trans yDot.symm))
  · intro o member d past
    rw [perm.mem_iff, List.mem_append]
    rcases List.mem_append.mp ((join_ops front back).mem_iff.mp member) with first | second
    · exact Or.inl (inOrder.closed o first d past)
    · exact closed o second d past
  · refine List.pairwise_append.mpr ⟨inOrder.policyOrder, policyOrder, ?_⟩
    exact fun p first q second =>
      notBefore (.policy p) ((policy_mem_ops front p).mpr first) (.policy q) ((policy_mem_ops back q).mpr second)
  · refine List.pairwise_append.mpr ⟨inOrder.docOrder, docOrder, ?_⟩
    exact fun d first e second =>
      notBefore (.document d) ((document_mem_ops front d).mpr first) (.document e) ((document_mem_ops back e).mpr second)

theorem sound_agree (rank : Dot → Nat) (s other : State) (one : Sound rank s) (two : Sound rank other)
    (alike : other.strategy = s.strategy) (same : ∀ o, o ∈ other.log ↔ o ∈ s.log)
    (undisputed : ∀ t, (s.graph t).Undisputed) : Agree s other := by
  have marks := undisputed_marked rank _ _ one two alike same undisputed
  exact ⟨same_valid rank _ _ one.resolved two.resolved alike same marks,
    same_eval rank _ _ one.resolved two.resolved alike same marks,
    same_text rank _ _ one.resolved two.resolved alike same marks⟩

theorem logs_agree (strategies : SiteId → Strategy) (w : World) (run : Reachable CausalSync strategies w) (i j : SiteId)
    (strategy : strategies j = strategies i) (same : ∀ o, o ∈ (w.site j).state.log ↔ o ∈ (w.site i).state.log)
    (undisputed : ∀ t, ((w.site i).state.graph t).Undisputed) : Agree (w.site i).state (w.site j).state := by
  obtain ⟨rank, grounded⟩ := grounded_run strategies w run
  have strategyOf := strategies_run CausalSync strategies w run
  have alike : (w.site j).state.strategy = (w.site i).state.strategy := by rw [strategyOf j, strategyOf i, strategy]
  exact sound_agree rank _ _ (grounded.sound i) (grounded.sound j) alike same undisputed

section Gather

variable (strategies : SiteId → Strategy) (w : World) (run : Reachable CausalSync strategies w)
variable (i : SiteId) (merged : Doc) (inOrder : InOrder w.held merged)
variable (kept : ∀ o ∈ (w.site i).doc.ops, o ∈ merged.ops) (recorded : ∀ o ∈ merged.ops, o ∈ w.history)

def gathered (authors : List SiteId) : Doc :=
  merged.filter (fun o => o ∈ (w.site i).doc.ops ∨ ∃ j ∈ authors, o ∈ (w.site j).doc.ops)

theorem mem_gathered (authors : List SiteId) (o : Operation) : o ∈ (gathered w i merged authors).ops ↔
    o ∈ merged.ops ∧ (o ∈ (w.site i).doc.ops ∨ ∃ j ∈ authors, o ∈ (w.site j).doc.ops) := by
  rw [gathered, mem_filter_ops, decide_eq_true_eq]

include run inOrder recorded

theorem gathered_in_order (authors : List SiteId) : InOrder w.held (gathered w i merged authors) := by
  obtain ⟨rank, grounded⟩ := grounded_run strategies w run
  have distinct := history_distinct w grounded.toFaithful
  refine ⟨?_, ?_, ?_, ?_⟩
  · rw [Doc.dots, gathered, filter_ops]
    exact inOrder.once.sublist (List.filter_sublist.map _)
  · intro o member d past
    obtain ⟨inMerged, place⟩ := (mem_gathered w i merged authors o).mp member
    obtain ⟨x, xIn, rfl⟩ := List.mem_map.mp (inOrder.closed o inMerged d past)
    have common : ∀ j, o ∈ (w.site j).doc.ops → x ∈ (w.site j).doc.ops := by
      intro j here
      obtain ⟨y, yIn, dot⟩ := List.mem_map.mp (grounded.closed j o here x.dot past)
      exact same_dot_same_op w.history distinct y x (grounded.recorded j y yIn) (recorded x xIn) dot ▸ yIn
    apply List.mem_map_of_mem
    refine (mem_gathered w i merged authors x).mpr ⟨xIn, ?_⟩
    rcases place with own | ⟨j, author, there⟩
    · exact Or.inl (common i own)
    · exact Or.inr ⟨j, author, common j there⟩
  · exact inOrder.policyOrder.sublist List.filter_sublist
  · exact inOrder.docOrder.sublist List.filter_sublist

include kept

theorem gather_authors (authors : List SiteId) :
    Reachable CausalSync strategies (w.put i ⟨(w.site i).state, gathered w i merged authors⟩) := by
  induction authors with
  | nil =>
      have part := gathered_in_order strategies w run i merged inOrder recorded []
      apply Reachable.step w _ run
      refine .sync w i i _ ⟨⟨?_, ?_, part.once, part.closed⟩, part.policyOrder, part.docOrder⟩
      · intro o own
        exact (mem_gathered w i merged [] o).mpr ⟨kept o own, Or.inl own⟩
      · intro o member
        obtain ⟨_, place⟩ := (mem_gathered w i merged [] o).mp member
        simpa using place
  | cons j rest ih =>
      have part := gathered_in_order strategies w run i merged inOrder recorded (j :: rest)
      have step := @Step.sync CausalSync (w.put i ⟨(w.site i).state, gathered w i merged rest⟩) i j
        (gathered w i merged (j :: rest)) ?_
      · rw [world_put_here, world_put_twice] at step
        exact ih.step _ _ step
      · rw [world_put_here]
        refine ⟨⟨?_, ?_, part.once, part.closed⟩, part.policyOrder, part.docOrder⟩
        · intro o member
          obtain ⟨inMerged, place⟩ := (mem_gathered w i merged rest o).mp member
          refine (mem_gathered w i merged (j :: rest) o).mpr ⟨inMerged, place.imp_right ?_⟩
          rintro ⟨k, author, there⟩
          exact ⟨k, List.mem_cons_of_mem j author, there⟩
        · intro o member
          obtain ⟨inMerged, place⟩ := (mem_gathered w i merged (j :: rest) o).mp member
          have known : o ∈ (gathered w i merged rest).ops ∨ o ∈ (w.site j).doc.ops := by
            rw [mem_gathered]
            rcases place with own | ⟨k, author, there⟩
            · exact Or.inl ⟨inMerged, Or.inl own⟩
            · rcases List.mem_cons.mp author with rfl | later
              · exact Or.inr there
              · exact Or.inl ⟨inMerged, Or.inr ⟨k, later, there⟩⟩
          by_cases self : j = i
          · subst self
            rw [world_put_here]
            refine Or.inl (known.elim id ?_)
            exact fun own => (mem_gathered w j merged rest o).mpr ⟨inMerged, Or.inl own⟩
          · rwa [world_put_elsewhere w i j _ self]

theorem gather_all : Reachable CausalSync strategies (w.put i ⟨(w.site i).state, merged⟩) := by
  obtain ⟨rank, grounded⟩ := grounded_run strategies w run
  have all : gathered w i merged (merged.ops.map (fun o => o.dot.site)) = merged := by
    have every : ∀ o ∈ merged.ops, o ∈ (w.site i).doc.ops ∨
        ∃ j ∈ merged.ops.map (fun o => o.dot.site), o ∈ (w.site j).doc.ops := by
      intro o member
      refine Or.inr ⟨o.dot.site, List.mem_map_of_mem member, ?_⟩
      exact grounded.logged o.dot.site o (grounded.own o (recorded o member))
    rw [gathered, Doc.filter, List.filter_eq_self.mpr, List.filter_eq_self.mpr]
    · exact fun d member => decide_eq_true (every _ ((document_mem_ops merged d).mpr member))
    · exact fun p member => decide_eq_true (every _ ((policy_mem_ops merged p).mpr member))
  exact all ▸ gather_authors strategies w run i merged inOrder kept recorded _

end Gather

namespace Peer

variable {Auto Sync Message Bytes : Type}

-- What the servers rely on of Automerge. `Grown history held auto` is to say that
-- the changes auto has, applied or waiting for others, are appends of the
-- history, each made to lists with the entries that `held` names.
structure Replicates (am : Automerge Auto Sync Message Bytes)
    (Grown : List Operation → (Dot → List Dot) → Auto → Prop) : Prop where
  decodes : ∀ m, am.decode (am.encode m) = some m
  recorded : ∀ history held auto, Grown history held auto → ∀ o ∈ (am.lists auto).ops, o ∈ history
  inOrder : ∀ history held auto, (history.map Operation.dot).Nodup → Grown history held auto →
    InOrder held (am.lists auto)
  lists : ∀ auto o, am.lists (am.append auto o) = (am.lists auto).append o
  append : ∀ history held auto o, Grown history held auto → (∀ x ∈ history, x.dot ≠ o.dot) →
    Grown (history ++ [o]) (Function.update held o.dot (am.lists auto).dots) (am.append auto o)
  elsewhere : ∀ history held auto o past, Grown history held auto → (∀ x ∈ history, x.dot ≠ o.dot) →
    Grown (history ++ [o]) (Function.update held o.dot past) auto
  generateLists : ∀ auto sync, am.lists (am.generate auto sync).1 = am.lists auto
  generate : ∀ history held auto sync, Grown history held auto → Grown history held (am.generate auto sync).1
  receive : ∀ history held auto sync source sent m, (history.map Operation.dot).Nodup → Grown history held auto →
    Grown history held source → (am.generate source sent).2.2 = some m →
      Grown history held (am.receive auto sync m).1 ∧
        ∀ o ∈ (am.lists auto).ops, o ∈ (am.lists (am.receive auto sync m).1).ops

def sharedServer (root : Auto) (strategies : SiteId → Strategy) (me : SiteId) : Server Auto Sync :=
  ⟨(newStateFromBytes me (strategies me) newSharedDoc).1, root, fun _ => none⟩

def Session.parcels (session : Session Bytes) : List (Parcel Bytes) :=
  session.sending.toList ++ session.channel ++ session.wire.filterMap PeerMessage.parcel

section Simulation

variable (am : Automerge Auto Sync Message Bytes) (Grown : List Operation → (Dot → List Dot) → Auto → Prop)

def Posted (world : World) (parcel : Parcel Bytes) : Prop :=
  ∃ source sent m, Grown world.history world.held source ∧ (am.generate source sent).2.2 = some m ∧
    parcel.bytes = am.encode m

-- The last field is what receive_sync adds to a causal run: it rebuilds at once.
structure Matches (w : Cluster Auto Sync Bytes) (world : World) : Prop where
  site : ∀ i, world.site i = ⟨(w.server i).state, am.lists (w.server i).doc⟩
  grown : ∀ i, Grown world.history world.held (w.server i).doc
  posted : ∀ e, ∀ parcel ∈ (w.session e).parcels, Posted am Grown world parcel
  current : ∀ i, ∀ o ∈ (am.lists (w.server i).doc).ops, o ∈ (w.server i).state.log

variable (w : Cluster Auto Sync Bytes) (world : World) (matched : Matches am Grown w world)

include matched

theorem matched_log (strategies : SiteId → Strategy) (reached : Reachable CausalSync strategies world) (i : SiteId)
    (o : Operation) : o ∈ (w.server i).state.log ↔ o ∈ (am.lists (w.server i).doc).ops := by
  obtain ⟨_, grounded⟩ := grounded_run strategies world reached
  have logged := grounded.logged i o
  rw [matched.site i] at logged
  exact ⟨logged, matched.current i o⟩

theorem matches_put (e : ConnectionEnd) (session : Session Bytes)
    (fewer : ∀ parcel ∈ session.parcels, parcel ∈ (w.session e).parcels) : Matches am Grown (w.put e session) world := by
  refine ⟨matched.site, matched.grown, ?_, matched.current⟩
  intro a parcel member
  by_cases here : a = e
  · rw [here, put_here] at member
    exact matched.posted e parcel (fewer parcel member)
  · rw [put_elsewhere w e a session here] at member
    exact matched.posted a parcel member

theorem matches_connect (i j : SiteId) : Matches am Grown (w.connect i j) world := by
  refine ⟨matched.site, matched.grown, ?_, matched.current⟩
  intro a parcel member
  rcases connect_session w i j a with ⟨_, site, opened⟩ | ⟨_, same⟩
  · rw [opened] at member
    simp [Session.parcels, Session.opened, PeerMessage.parcel] at member
  · rw [same] at member
    exact matched.posted a parcel member

theorem matches_serve (i : SiteId) (server : Server Auto Sync) (state : server.state = (w.server i).state)
    (lists : am.lists server.doc = am.lists (w.server i).doc) (grown : Grown world.history world.held server.doc) :
    Matches am Grown (w.serve i server) world := by
  refine ⟨?_, ?_, matched.posted, ?_⟩
  · refine (Function.forall_update_iff w.server (fun j s => world.site j = ⟨s.state, am.lists s.doc⟩)).mpr
      ⟨?_, fun j _ => matched.site j⟩
    rw [matched.site i, state, lists]
  · exact (Function.forall_update_iff w.server (fun _ s => Grown world.history world.held s.doc)).mpr
      ⟨grown, fun j _ => matched.grown j⟩
  · refine (Function.forall_update_iff w.server (fun _ s => ∀ o ∈ (am.lists s.doc).ops, o ∈ s.state.log)).mpr
      ⟨?_, fun j _ => matched.current j⟩
    rw [state, lists]
    exact matched.current i

variable (replicates : Replicates am Grown)

include replicates

theorem matches_generate (i : SiteId) (o : Operation) (s : State) (fresh : ∀ x ∈ world.history, x.dot ≠ o.dot)
    (log : s.log = (world.site i).state.log ++ [o]) :
    Matches am Grown (w.serve i { w.server i with state := s, doc := am.append (w.server i).doc o })
      (world.generate i o ⟨s, (world.site i).doc.append o⟩) := by
  have lists : (world.site i).doc = am.lists (w.server i).doc := by rw [matched.site i]
  refine ⟨?_, ?_, ?_, ?_⟩
  · refine (Function.forall_update_iff w.server (fun j server =>
      (world.generate i o ⟨s, (world.site i).doc.append o⟩).site j = ⟨server.state, am.lists server.doc⟩)).mpr ⟨?_, ?_⟩
    · rw [generate_here, lists, replicates.lists]
    · intro j other
      exact (Function.update_of_ne other _ _).trans (matched.site j)
  · refine (Function.forall_update_iff w.server (fun _ server =>
      Grown (world.history ++ [o]) (Function.update world.held o.dot (world.site i).doc.dots) server.doc)).mpr ⟨?_, ?_⟩
    · rw [lists]
      exact replicates.append _ _ _ o (matched.grown i) fresh
    · exact fun j _ => replicates.elsewhere _ _ _ o _ (matched.grown j) fresh
  · intro e parcel member
    obtain ⟨source, sent, m, grown, generated, bytes⟩ := matched.posted e parcel member
    exact ⟨source, sent, m, replicates.elsewhere _ _ _ o _ grown fresh, generated, bytes⟩
  · refine (Function.forall_update_iff w.server (fun _ server =>
      ∀ x ∈ (am.lists server.doc).ops, x ∈ server.state.log)).mpr ⟨?_, fun j _ => matched.current j⟩
    intro x member
    rw [replicates.lists, mem_doc_append] at member
    rw [log, matched.site i, List.mem_append, List.mem_singleton]
    exact member.imp_left (matched.current i x)

variable (strategies : SiteId → Strategy) (run : Reachable CausalSync strategies world)

include run

theorem matches_receive (i : SiteId) (peerSite : SiteId) (parcel : Parcel Bytes) (posted : Posted am Grown world parcel) :
    ∃ after, Reachable CausalSync strategies after ∧
      Matches am Grown (w.serve i ((w.server i).receiveSync am peerSite parcel.bytes).1) after := by
  obtain ⟨rank, grounded⟩ := grounded_run strategies world run
  have distinct := history_distinct world grounded.toFaithful
  obtain ⟨source, sent, m, sourceGrown, generated, bytes⟩ := posted
  generalize syncs : ((w.server i).peerSyncStates peerSite).getD am.start = sync
  obtain ⟨grown, kept⟩ := replicates.receive _ _ _ sync source sent m distinct (matched.grown i) sourceGrown generated
  rw [Server.receiveSync, bytes, replicates.decodes m, syncs]
  have site := matched.site i
  have gatheredRun := gather_all strategies world run i (am.lists (am.receive (w.server i).doc sync m).1)
    (replicates.inOrder _ _ _ distinct grown) (by rw [site]; exact kept) (replicates.recorded _ _ _ grown)
  have rebuilt := gatheredRun.step _ _ (.rebuild _ i)
  rw [world_put_here, world_put_twice, site] at rebuilt
  refine ⟨_, rebuilt, ?_, ?_, matched.posted, ?_⟩
  · refine (Function.forall_update_iff w.server (fun j server => (world.put i
      ⟨(rebuildFromAutomerge (w.server i).state (am.lists (am.receive (w.server i).doc sync m).1)).1,
        am.lists (am.receive (w.server i).doc sync m).1⟩).site j =
        ⟨server.state, am.lists server.doc⟩)).mpr ⟨world_put_here _ _ _, ?_⟩
    intro j other
    rw [world_put_elsewhere _ _ _ _ other, matched.site j]
  · exact (Function.forall_update_iff w.server (fun _ server => Grown world.history world.held server.doc)).mpr
      ⟨grown, fun j _ => matched.grown j⟩
  · refine (Function.forall_update_iff w.server (fun _ server =>
      ∀ o ∈ (am.lists server.doc).ops, o ∈ server.state.log)).mpr ⟨?_, fun j _ => matched.current j⟩
    intro o member
    obtain ⟨rank, gathered⟩ := grounded_run strategies _ gatheredRun
    have known := rebuilt_known rank _ gathered i o
    rw [world_put_here, site] at known
    exact known member

-- A server's handler is some steps of the run, what the tasks pass along is none.
theorem move_matched (may : Cluster Auto Sync Bytes → ConnectionEnd → Prop) (next : Cluster Auto Sync Bytes)
    (move : Move am may w next) : ∃ after, Reachable CausalSync strategies after ∧ Matches am Grown next after := by
  obtain ⟨rank, grounded⟩ := grounded_run strategies world run
  have distinct := history_distinct world grounded.toFaithful
  have same : ∀ i, (world.site i).state = (w.server i).state ∧ (world.site i).doc = am.lists (w.server i).doc := by
    intro i
    rw [matched.site i]
    exact ⟨rfl, rfl⟩
  cases move with
  | connect i j => exact ⟨world, run, matches_connect am Grown w world matched i j⟩
  | updatePolicy i target right effect p s doc ok =>
      rw [← (same i).1, ← (same i).2] at ok
      obtain ⟨_, fresh, stepped, rfl⟩ := (update_policy_ok _ _ _ _ _ _ _ _).mp ok
      refine ⟨_, run.step _ _ (.updatePolicy world i target right effect p s _ ok), ?_⟩
      refine matches_generate am Grown w world matched replicates i (.policy p) s ?_
        (by rw [stepped, effect_policy_log, allocated_log])
      intro x member
      rw [dot_policy, fresh, freshPolicy, grounded.me i]
      exact fresh_dot world grounded.toFaithful i x member
  | updateDocument i edit d s doc ok =>
      rw [← (same i).1, ← (same i).2] at ok
      obtain ⟨_, fresh, stepped, rfl⟩ := (update_document_ok _ _ _ _ _ _).mp ok
      refine ⟨_, run.step _ _ (.updateDocument world i edit d s _ ok), ?_⟩
      refine matches_generate am Grown w world matched replicates i (.document d) s ?_
        (by rw [stepped, effect_document_log, allocated_log])
      intro x member
      rw [dot_document, fresh, freshDocument, grounded.me i]
      exact fresh_dot world grounded.toFaithful i x member
  | greet e site rest running silent read =>
      refine ⟨world, run, ?_⟩
      have other := matches_put am Grown w world matched e.other { w.session e.other with wire := rest } ?_
      · refine matches_put am Grown _ world other e _ ?_
        rw [put_elsewhere w e.other e _ (other_ne e).symm]
        exact fun _ member => member
      · intro parcel member
        simpa [Session.parcels, read, PeerMessage.parcel] using member
  | generate e peerSite bytes alive greeted free some_ allowed =>
      obtain ⟨m, generated, encoded⟩ := Option.map_eq_some_iff.mp some_
      refine ⟨world, run, ?_⟩
      have served := matches_serve am Grown w world matched (w.session e).site
        ((w.server (w.session e).site).generateSync am peerSite).1 rfl (replicates.generateLists _ _)
        (replicates.generate _ _ _ _ (matched.grown _))
      refine ⟨served.site, served.grown, ?_, served.current⟩
      intro a parcel member
      by_cases here : a = e
      · subst here
        have session : (w.generate am a peerSite bytes).session a =
            { w.session a with sending := some (w.parcel a peerSite bytes) } := put_here _ a _
        rw [session] at member
        simp only [Session.parcels, Option.toList_some, List.mem_append, List.mem_singleton] at member
        rcases member with (rfl | queued) | written
        · exact ⟨_, _, m, matched.grown _, generated, encoded.symm⟩
        · exact matched.posted a parcel (by simp [Session.parcels, queued])
        · exact matched.posted a parcel (by simp [Session.parcels, written])
      · rw [generate_elsewhere am w e bytes peerSite a here] at member
        exact matched.posted a parcel member
  | idle e peerSite alive greeted free none_ =>
      refine ⟨world, run, matches_serve am Grown w world matched (w.session e).site _ rfl ?_ ?_⟩
      · exact replicates.generateLists _ _
      · exact replicates.generate _ _ _ _ (matched.grown _)
  | send e parcel waiting receiver room =>
      refine ⟨world, run, matches_put am Grown w world matched e _ ?_⟩
      intro other member
      simp only [Session.parcels, waiting, Option.toList_none, Option.toList_some, List.nil_append, List.mem_append,
        List.mem_singleton] at member ⊢
      tauto
  | sendFails e parcel waiting gone =>
      refine ⟨world, run, matches_put am Grown w world matched e _ ?_⟩
      intro other member
      simp only [Session.parcels, Option.toList_none, List.nil_append, List.mem_append] at member ⊢
      tauto
  | write e parcel rest alive next =>
      refine ⟨world, run, matches_put am Grown w world matched e _ ?_⟩
      intro other member
      simp only [Session.parcels, next, List.filterMap_append, List.filterMap_cons, PeerMessage.parcel,
        List.filterMap_nil, List.mem_append, List.mem_cons] at member ⊢
      tauto
  | writerEnds e cause =>
      refine ⟨world, run, matches_put am Grown w world matched e _ ?_⟩
      intro other member
      simp only [Session.parcels, List.append_nil, List.mem_append] at member ⊢
      tauto
  | receive e peerSite parcel rest running greeted read =>
      have posted := matched.posted e.other parcel (by simp [Session.parcels, read, PeerMessage.parcel])
      obtain ⟨after, reached, served⟩ := matches_receive am Grown w world matched replicates strategies run
        (w.session e).site peerSite parcel posted
      have passed := matches_put am Grown _ after served e.other { w.session e.other with wire := rest } ?_
      · refine ⟨after, reached, ?_⟩
        rw [Cluster.receive]
        cases am.decode parcel.bytes <;> exact ⟨passed.site, passed.grown, passed.posted, passed.current⟩
      · intro other member
        change other ∈ (w.session e.other).parcels
        simp only [Session.parcels, read, List.filterMap_cons, PeerMessage.parcel, List.mem_append,
          List.mem_cons] at member ⊢
        tauto
  | ignore e peerSite site rest running greeted read =>
      refine ⟨world, run, matches_put am Grown w world matched e.other _ ?_⟩
      intro other member
      simpa [Session.parcels, read, PeerMessage.parcel] using member
  | readFails e running =>
      exact ⟨world, run, matches_put am Grown w world matched e _ (fun _ member => member)⟩
  | outboundAborts e ended =>
      refine ⟨world, run, matches_put am Grown w world matched e _ ?_⟩
      intro other member
      simp only [Session.parcels, Option.toList_none, List.nil_append, List.mem_append] at member ⊢
      tauto

end Simulation

def GrownDoc (history : List Operation) (held : Dot → List Dot) (doc : Doc) : Prop :=
  InOrder held doc ∧ ∀ o ∈ doc.ops, o ∈ history

section WholeDocument

variable (history : List Operation) (held : Dot → List Dot) (doc : Doc)

theorem in_order_elsewhere (o : Operation) (past : List Dot) (grown : GrownDoc history held doc)
    (fresh : ∀ x ∈ history, x.dot ≠ o.dot) : InOrder (Function.update held o.dot past) doc := by
  have old : ∀ x ∈ doc.ops, Function.update held o.dot past x.dot = held x.dot :=
    fun x member => Function.update_of_ne (fresh x (grown.2 x member)) _ _
  refine ⟨grown.1.once, ?_, ?_, ?_⟩
  · intro x member d before
    rw [old x member] at before
    exact grown.1.closed x member d before
  · refine grown.1.policyOrder.imp_of_mem fun {earlier later} member _ apart => ?_
    rw [← dot_policy earlier, old (.policy earlier) ((policy_mem_ops doc earlier).mpr member)]
    exact apart
  · refine grown.1.docOrder.imp_of_mem fun {earlier later} member _ apart => ?_
    rw [← dot_document earlier, old (.document earlier) ((document_mem_ops doc earlier).mpr member)]
    exact apart

theorem append_grown (o : Operation) (grown : GrownDoc history held doc) (fresh : ∀ x ∈ history, x.dot ≠ o.dot) :
    GrownDoc (history ++ [o]) (Function.update held o.dot doc.dots) (doc.append o) := by
  have before := in_order_elsewhere history held doc o doc.dots grown fresh
  have single : ∃ back : Doc, doc.append o = doc.join back ∧ back.ops = [o] ∧
      (∀ r : PolicyOp → PolicyOp → Prop, back.policyLog.Pairwise r) ∧
      ∀ r : DocOp → DocOp → Prop, back.docLog.Pairwise r := by
    cases o with
    | policy p =>
        exact ⟨⟨[p], []⟩, by simp [Doc.append, Doc.join], rfl, fun r => List.pairwise_singleton r p, fun _ => .nil⟩
    | document d =>
        exact ⟨⟨[], [d]⟩, by simp [Doc.append, Doc.join], rfl, fun _ => .nil, fun r => List.pairwise_singleton r d⟩
  obtain ⟨back, append, ops, policies, documents⟩ := single
  rw [append]
  refine ⟨in_order_join _ doc back before ?_ ?_ ?_ ?_ ?_, ?_⟩
  · simp [Doc.dots, ops]
  · intro x xIn y yIn
    rw [ops, List.mem_singleton] at yIn
    exact yIn ▸ fresh x (grown.2 x xIn)
  · intro x member d past
    rw [ops, List.mem_singleton] at member
    rw [member, Function.update_self] at past
    exact Or.inl past
  · exact policies _
  · exact documents _
  · intro x member
    rw [(join_ops doc back).mem_iff, ops] at member
    exact (List.mem_append.mp member).elim (fun old => List.mem_append_left _ (grown.2 x old)) (List.mem_append_right _)

theorem receive_grown (distinct : (history.map Operation.dot).Nodup) (grown : GrownDoc history held doc) (source : Doc)
    (sourceGrown : GrownDoc history held source) :
    GrownDoc history held (doc.join (source.filter (fun o => o ∉ doc.ops))) := by
  have only : ∀ o, o ∈ (source.filter (fun o => o ∉ doc.ops)).ops ↔ o ∈ source.ops ∧ o ∉ doc.ops := by
    intro o
    rw [mem_filter_ops, decide_eq_true_eq]
  refine ⟨in_order_join held doc _ grown.1 ?_ ?_ ?_ ?_ ?_, ?_⟩
  · rw [Doc.dots, filter_ops]
    exact sourceGrown.1.once.sublist (List.filter_sublist.map _)
  · intro x xIn y yIn same
    obtain ⟨inSource, new⟩ := (only y).mp yIn
    exact new (same_dot_same_op history distinct x y (grown.2 x xIn) (sourceGrown.2 y inSource) same ▸ xIn)
  · intro o member d past
    obtain ⟨x, xIn, rfl⟩ := List.mem_map.mp (sourceGrown.1.closed o ((only o).mp member).1 d past)
    by_cases old : x ∈ doc.ops
    · exact Or.inl (List.mem_map_of_mem old)
    · exact Or.inr (List.mem_map_of_mem ((only x).mpr ⟨xIn, old⟩))
  · exact sourceGrown.1.policyOrder.sublist List.filter_sublist
  · exact sourceGrown.1.docOrder.sublist List.filter_sublist
  · intro x member
    rcases List.mem_append.mp ((join_ops doc _).mem_iff.mp member) with old | new
    · exact grown.2 x old
    · exact sourceGrown.2 x ((only x).mp new).1

end WholeDocument

theorem whole_document_sends (source : Doc) (sent : Option Doc) (m : Doc)
    (generated : (wholeDocument.generate source sent).2.2 = some m) : m = source := by
  simp only [wholeDocument] at generated
  split at generated
  · cases generated
  · exact (Option.some.inj generated).symm

theorem whole_document_receives (doc : Doc) (last : Option Doc) (m : Doc) :
    (wholeDocument.receive doc last m).1 = doc.join (m.filter (fun o => o ∉ doc.ops)) := by
  simp [wholeDocument, Doc.join, Doc.filter]

theorem whole_document_replicates : Replicates wholeDocument GrownDoc := by
  have unchanged : ∀ doc last, (wholeDocument.generate doc last).1 = doc := by
    intro doc last
    simp only [wholeDocument]
    split <;> rfl
  refine ⟨fun _ => rfl, fun _ _ _ grown => grown.2, fun _ _ _ _ grown => grown.1, fun _ _ => rfl, append_grown, ?_, ?_,
    ?_, ?_⟩
  · intro history held doc o past grown fresh
    exact ⟨in_order_elsewhere history held doc o past grown fresh, fun x member => List.mem_append_left _ (grown.2 x member)⟩
  · exact fun doc last => unchanged doc last
  · intro history held doc last grown
    rw [unchanged]
    exact grown
  · intro history held doc last source sent m distinct grown sourceGrown generated
    obtain rfl := whole_document_sends source sent m generated
    rw [whole_document_receives]
    refine ⟨receive_grown history held doc distinct grown m sourceGrown, ?_⟩
    intro o member
    exact (join_ops doc _).mem_iff.mpr (List.mem_append_left _ member)

section Sessions

variable (am : Automerge Auto Sync Message Bytes) (Grown : List Operation → (Dot → List Dot) → Auto → Prop)
variable (replicates : Replicates am Grown) (root : Auto) (empty : am.lists root = newSharedDoc)
variable (grown : Grown [] (fun _ => []) root) (strategies : SiteId → Strategy)
variable (may : Cluster Auto Sync Bytes → ConnectionEnd → Prop) (w : Cluster Auto Sync Bytes)
variable (run : Run am may (sharedServer root strategies) w)

include replicates empty grown run

theorem run_matched : ∃ world, Reachable CausalSync strategies world ∧ Matches am Grown w world := by
  induction run with
  | start =>
      refine ⟨World.init strategies, .init, ?_, fun _ => grown, ?_, ?_⟩
      · intro i
        change _ = Site.mk _ (am.lists root)
        rw [empty]
        rfl
      · exact fun _ _ member => absurd member List.not_mem_nil
      · intro i o member
        change o ∈ (am.lists root).ops at member
        rw [empty] at member
        exact absurd member List.not_mem_nil
  | move w next _ move ih =>
      obtain ⟨world, reached, matched⟩ := ih
      exact move_matched am Grown w world matched replicates strategies reached may next move

-- Whatever the sessions lose, repeat or reorder, the servers' states and lists
-- are those of a causal run, and every entry of a document is in the log.
theorem sessions_replicate : ∃ world, Reachable CausalSync strategies world ∧
    ∀ i, world.site i = ⟨(w.server i).state, am.lists (w.server i).doc⟩ ∧
      ∀ o, o ∈ (w.server i).state.log ↔ o ∈ (am.lists (w.server i).doc).ops := by
  obtain ⟨world, reached, matched⟩ := run_matched am Grown replicates root empty grown strategies may w run
  exact ⟨world, reached, fun i => ⟨matched.site i, matched_log am Grown w world matched strategies reached i⟩⟩

theorem same_entries_agree (i j : SiteId) (strategy : strategies j = strategies i)
    (same : ∀ o, o ∈ (am.lists (w.server j).doc).ops ↔ o ∈ (am.lists (w.server i).doc).ops)
    (undisputed : ∀ t, ((w.server i).state.graph t).Undisputed) : Agree (w.server i).state (w.server j).state := by
  obtain ⟨world, reached, matched⟩ := run_matched am Grown replicates root empty grown strategies may w run
  have log := matched_log am Grown w world matched strategies reached
  have agree := logs_agree strategies world reached i j strategy
  rw [matched.site i, matched.site j] at agree
  exact agree (fun o => by rw [log j o, log i o, same o]) undisputed

end Sessions

def denyC : PolicyOp := ⟨⟨"A", 1⟩, "C", .write, .deny, [], none, []⟩

def allowC : PolicyOp := ⟨⟨"B", 1⟩, "C", .write, .allow, [], none, []⟩

-- A and B have two sessions. What A has generated first waits in one of them,
-- and by the other A hears of B's allow and sends B its deny.
theorem overtaken_run : ∃ w, Run wholeDocument (fun _ _ => True) (sharedServer newSharedDoc (fun _ => .integrity)) w ∧
    (w.handed "B" "A").map Parcel.number = [1] ∧ (w.server "A").state.strategy = .integrity ∧
    (w.server "A").state.log = [.policy denyC, .policy allowC] ∧
    (w.server "B").state.log = [.policy allowC, .policy denyC] ∧
    (w.server "A").doc = ⟨[denyC, allowC], []⟩ ∧ (w.server "B").doc = ⟨[allowC, denyC], []⟩ := by
  have run : Run wholeDocument (fun _ _ => True) (sharedServer newSharedDoc (fun _ => .integrity))
    (Cluster.start (sharedServer newSharedDoc (fun _ => .integrity))) := .start
  have run := run.move _ _ (.connect _ "A" "B")
  have run := run.move _ _ (.connect _ "B" "A")
  have run := run.move _ _ (.greet _ (0, true) "B" [] rfl rfl rfl)
  have run := run.move _ _ (.greet _ (1, false) "B" [] rfl rfl rfl)
  have run := run.move _ _ (.greet _ (1, true) "A" [] rfl rfl rfl)
  have run := run.move _ _ (.updatePolicy _ "A" "C" .write .deny denyC _ _
    (update_policy_accepted _ _ _ _ _ (by decide +kernel)))
  have run := run.move _ _ (.updatePolicy _ "B" "C" .write .allow allowC _ _
    (update_policy_accepted _ _ _ _ _ (by decide +kernel)))
  have run := run.move _ _ (.generate _ (0, true) "B" ⟨[denyC], []⟩ rfl rfl rfl (by decide +kernel) trivial)
  have run := run.move _ _ (.generate _ (1, true) "A" ⟨[allowC], []⟩ rfl rfl rfl (by decide +kernel) trivial)
  have run := run.move _ _ (.send _ (1, true) _ rfl rfl (by decide +kernel))
  have run := run.move _ _ (.write _ (1, true) _ _ rfl rfl)
  have run := run.move _ _ (.receive _ (1, false) "B" _ _ rfl rfl rfl)
  have run := run.move _ _ (.generate _ (1, false) "B" ⟨[denyC, allowC], []⟩ rfl rfl rfl (by decide +kernel) trivial)
  have run := run.move _ _ (.send _ (1, false) _ rfl rfl (by decide +kernel))
  have run := run.move _ _ (.write _ (1, false) _ _ rfl rfl)
  have run := run.move _ _ (.receive _ (1, true) "A" _ _ rfl rfl rfl)
  exact ⟨_, run, by decide +kernel, by decide +kernel, by decide +kernel, by decide +kernel, by decide +kernel,
    by decide +kernel⟩

theorem empty_document_grown : GrownDoc [] (fun _ => []) newSharedDoc := ⟨⟨List.nodup_nil, nofun, .nil, .nil⟩, nofun⟩

theorem overtaken_session_replicates : ∃ world, Reachable CausalSync (fun _ => .integrity) world ∧
    (world.site "B").state.log = [.policy allowC, .policy denyC] := by
  obtain ⟨w, run, _, _, _, log, _⟩ := overtaken_run
  obtain ⟨world, reached, same⟩ := sessions_replicate wholeDocument GrownDoc whole_document_replicates newSharedDoc rfl
    empty_document_grown (fun _ => .integrity) _ w run
  refine ⟨world, reached, ?_⟩
  rw [(same "B").1]
  exact log

theorem overtaken_servers_agree : ∃ w,
    Run wholeDocument (fun _ _ => True) (sharedServer newSharedDoc (fun _ => .integrity)) w ∧
    (w.server "A").state.log = [.policy denyC, .policy allowC] ∧ (w.server "B").state.log = [.policy allowC, .policy denyC] ∧
    Agree (w.server "A").state (w.server "B").state := by
  obtain ⟨w, run, _, strategy, first, second, one, other⟩ := overtaken_run
  refine ⟨w, run, first, second, same_entries_agree wholeDocument GrownDoc whole_document_replicates newSharedDoc rfl
    empty_document_grown (fun _ => .integrity) _ w run "A" "B" rfl ?_ ?_⟩
  · intro o
    rw [one, other]
    exact (List.Perm.swap (Operation.policy denyC) (Operation.policy allowC) []).mem_iff
  · refine fun t => Conflict.lone_winner_undisputed _ ⟨"A", 1⟩ ?_
    rintro d ⟨p, member, _, rfl, favored⟩
    rw [first] at member
    rw [strategy] at favored
    rcases List.mem_pair.mp member with same | same
    · rw [Operation.policy.inj same]
      rfl
    · rw [Operation.policy.inj same] at favored
      exact absurd favored (by decide)

end Peer

end Accure
