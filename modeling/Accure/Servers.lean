import Mathlib.Data.List.MinMax
import Accure.Faithful

set_option autoImplicit false

namespace Accure

-- Servers do not share their initial bytes: each one's new_shared_doc creates
-- its own two list objects under the same root keys. Of the objects a doc
-- holds under a key, get returns the one whose id ranks highest.
structure Network where
  servers : List SiteId
  policyRank : SiteId → Nat
  docRank : SiteId → Nat
  policyApart : ∀ a ∈ servers, ∀ b ∈ servers, policyRank a = policyRank b → a = b
  docApart : ∀ a ∈ servers, ∀ b ∈ servers, docRank a = docRank b → a = b

def Network.rank (net : Network) : Operation → SiteId → Nat
  | .policy _ => net.policyRank
  | .document _ => net.docRank

abbrev Lists := SiteId → Option Doc

def Lists.entries (lists : Lists) (c : SiteId) : List Operation := ((lists c).map Doc.ops).getD []

def Network.held (net : Network) (lists : Lists) : List SiteId := net.servers.filter (fun c => (lists c).isSome)

def Network.read (net : Network) (lists : Lists) : Doc where
  policyLog := (((net.held lists).argmax net.policyRank).bind lists).elim [] Doc.policyLog
  docLog := (((net.held lists).argmax net.docRank).bind lists).elim [] Doc.docLog

-- A server always holds its own objects, so ensure_list never has to create one.
def Network.append (net : Network) (lists : Lists) (o : Operation) : Lists :=
  match (net.held lists).argmax (net.rank o) with
  | none => lists
  | some c => Function.update lists c ((lists c).map (fun doc => doc.append o))

structure Server where
  state : State
  lists : Lists

-- An op for which an update returned Ok, and the list objects that its author's
-- doc held then.
structure Accepted where
  op : Operation
  author : SiteId
  held : List SiteId

structure Deployment where
  server : SiteId → Server
  accepted : List Accepted

def Server.start (me : SiteId) (strategy : Strategy) : Server :=
  let (s, doc) := newStateFromBytes me strategy newSharedDoc
  ⟨s, Function.update (fun _ => none) me (some doc)⟩

def Deployment.init (strategies : SiteId → Strategy) : Deployment where
  server i := Server.start i (strategies i)
  accepted := []

def Deployment.put (d : Deployment) (i : SiteId) (server : Server) : Deployment :=
  { d with server := Function.update d.server i server }

def Deployment.accept (net : Network) (d : Deployment) (i : SiteId) (o : Operation) (s : State) : Deployment where
  server := Function.update d.server i ⟨s, net.append (d.server i).lists o⟩
  accepted := d.accepted ++ [⟨o, i, net.held (d.server i).lists⟩]

theorem server_put_each (d : Deployment) (i : SiteId) (server : Server) (holds : SiteId → Server → Prop)
    (here : holds i server) (elsewhere : ∀ j, j ≠ i → holds j (d.server j)) (j : SiteId) :
    holds j ((d.put i server).server j) :=
  (Function.forall_update_iff d.server holds).mpr ⟨here, elsewhere⟩ j

theorem accept_each (net : Network) (d : Deployment) (i : SiteId) (o : Operation) (s : State)
    (holds : SiteId → Server → Prop) (here : holds i ⟨s, net.append (d.server i).lists o⟩)
    (elsewhere : ∀ j, j ≠ i → holds j (d.server j)) (j : SiteId) : holds j ((d.accept net i o s).server j) :=
  (Function.forall_update_iff d.server holds).mpr ⟨here, elsewhere⟩ j

structure ListsDelivered (net : Network) (own other merged : Lists) : Prop where
  kept : ∀ c ∈ net.servers, (own c).isSome = true → (merged c).isSome = true
  known : ∀ c ∈ net.servers, (merged c).isSome = true → (own c).isSome = true ∨ (other c).isSome = true
  keptEntries : ∀ c ∈ net.servers, ∀ o ∈ own.entries c, o ∈ merged.entries c
  knownEntries : ∀ c ∈ net.servers, ∀ o ∈ merged.entries c, o ∈ own.entries c ∨ o ∈ other.entries c
  once : ∀ c ∈ net.servers, ((merged.entries c).map Operation.dot).Nodup

inductive ServerStep (net : Network) : Deployment → Deployment → Prop where
  | updatePolicy (d : Deployment) (i target : SiteId) (right : Right) (effect : Effect) (p : PolicyOp) (s : State) (doc : Doc)
      (server : i ∈ net.servers)
      (ok : updatePolicy (d.server i).state (net.read (d.server i).lists) target right effect = .ok (p, s, doc)) :
      ServerStep net d (d.accept net i (.policy p) s)
  | updateDocument (d : Deployment) (i : SiteId) (edit : TextEdit) (e : DocOp) (s : State) (doc : Doc)
      (server : i ∈ net.servers)
      (ok : updateDocument (d.server i).state (net.read (d.server i).lists) edit = .ok (e, s, doc)) :
      ServerStep net d (d.accept net i (.document e) s)
  | sync (d : Deployment) (i j : SiteId) (merged : Lists) (server : i ∈ net.servers) (peer : j ∈ net.servers)
      (delivered : ListsDelivered net (d.server i).lists (d.server j).lists merged) :
      ServerStep net d (d.put i ⟨(d.server i).state, merged⟩)
  | rebuild (d : Deployment) (i : SiteId) (server : i ∈ net.servers) :
      ServerStep net d (d.put i
        ⟨(rebuildFromAutomerge (d.server i).state (net.read (d.server i).lists)).1, (d.server i).lists⟩)

inductive Deployed (net : Network) (strategies : SiteId → Strategy) : Deployment → Prop where
  | init : Deployed net strategies (Deployment.init strategies)
  | step (d next : Deployment) (before : Deployed net strategies d) (step : ServerStep net d next) :
      Deployed net strategies next

def Synced (net : Network) (d : Deployment) : Prop :=
  ∀ i ∈ net.servers, ∀ j ∈ net.servers, ∀ c ∈ net.servers,
    ((d.server i).lists c).isSome = ((d.server j).lists c).isSome ∧
      ∀ o ∈ (d.server i).lists.entries c, o ∈ (d.server j).lists.entries c

structure Stored (net : Network) (d : Deployment) : Prop where
  me : ∀ i, (d.server i).state.me = i
  own : ∀ i, ((d.server i).lists i).isSome = true
  bound : ∀ a ∈ d.accepted, a.op.dot.n ≤ (d.server a.op.dot.site).state.counter
  distinct : (d.accepted.map (fun a => a.op.dot)).Nodup
  authors : ∀ a ∈ d.accepted, a.author ∈ net.servers ∧ ∀ c ∈ a.held, c ∈ net.servers
  stored : ∀ a ∈ d.accepted, ∀ c, a.held.argmax (net.rank a.op) = some c →
    a.op ∈ (d.server a.author).lists.entries c
  origin : ∀ j c o, o ∈ (d.server j).lists.entries c → c ∈ net.servers →
    ∃ a ∈ d.accepted, a.op = o ∧ a.held.argmax (net.rank o) = some c
  logged : ∀ j, ∀ o ∈ (d.server j).state.log, ∃ a ∈ d.accepted, a.op = o
  winner : ∀ j o, o ∈ (d.server j).state.log → net.servers.argmax (net.rank o) = some j →
    o ∈ (d.server j).lists.entries j

theorem rank_apart (net : Network) (o : Operation) (a b : SiteId) (aIn : a ∈ net.servers) (bIn : b ∈ net.servers)
    (same : net.rank o a = net.rank o b) : a = b := by
  cases o with
  | policy p => exact net.policyApart a aIn b bIn same
  | document e => exact net.docApart a aIn b bIn same

theorem argmax_present (net : Network) (o : Operation) (present : List SiteId) (inside : ∀ c ∈ present, c ∈ net.servers)
    (c : SiteId) (best : net.servers.argmax (net.rank o) = some c) (member : c ∈ present) :
    present.argmax (net.rank o) = some c := by
  cases chosen : present.argmax (net.rank o) with
  | none =>
      rw [List.argmax_eq_none] at chosen
      rw [chosen] at member
      exact absurd member List.not_mem_nil
  | some e =>
      have eIn := inside e (List.argmax_mem chosen)
      have above := List.le_of_mem_argmax member chosen
      have below := List.le_of_mem_argmax eIn best
      rw [rank_apart net o e c eIn (List.argmax_mem best) (Nat.le_antisymm below above)]

theorem mem_held (net : Network) (lists : Lists) (c : SiteId) :
    c ∈ net.held lists ↔ c ∈ net.servers ∧ (lists c).isSome = true := by
  rw [Network.held, List.mem_filter]

theorem held_argmax (net : Network) (lists : Lists) (o : Operation) (c : SiteId)
    (best : net.servers.argmax (net.rank o) = some c) (present : (lists c).isSome = true) :
    (net.held lists).argmax (net.rank o) = some c :=
  argmax_present net o (net.held lists) (fun e member => ((mem_held net lists e).mp member).1) c best
    ((mem_held net lists c).mpr ⟨List.argmax_mem best, present⟩)

theorem mem_entries (lists : Lists) (c : SiteId) (o : Operation) :
    o ∈ lists.entries c ↔ ∃ doc, lists c = some doc ∧ o ∈ doc.ops := by
  rw [Lists.entries]
  cases lists c with
  | none => simp
  | some doc => simp

theorem mem_read (net : Network) (lists : Lists) (o : Operation) : o ∈ (net.read lists).ops ↔
    ∃ c, (net.held lists).argmax (net.rank o) = some c ∧ o ∈ lists.entries c := by
  cases o with
  | policy p =>
      rw [policy_mem_ops, Network.read]
      cases chosen : (net.held lists).argmax net.policyRank with
      | none => simp [Network.rank, chosen]
      | some c => cases object : lists c <;> simp [Network.rank, chosen, object, mem_entries]
  | document e =>
      rw [document_mem_ops, Network.read]
      cases chosen : (net.held lists).argmax net.docRank with
      | none => simp [Network.rank, chosen]
      | some c => cases object : lists c <;> simp [Network.rank, chosen, object, mem_entries]

theorem append_present (net : Network) (lists : Lists) (o : Operation) (c : SiteId) :
    (net.append lists o c).isSome = (lists c).isSome := by
  rw [Network.append]
  cases (net.held lists).argmax (net.rank o) with
  | none => rfl
  | some e =>
      by_cases here : c = e
      · subst here
        simp
      · simp [Function.update_of_ne here]

theorem mem_append_entries (net : Network) (lists : Lists) (o : Operation) (c : SiteId) (x : Operation) :
    x ∈ (net.append lists o).entries c ↔
      x ∈ lists.entries c ∨ x = o ∧ (net.held lists).argmax (net.rank o) = some c := by
  rw [Network.append]
  cases chosen : (net.held lists).argmax (net.rank o) with
  | none => simp
  | some e =>
      by_cases here : c = e
      · subst here
        have present := ((mem_held net lists c).mp (List.argmax_mem chosen)).2
        obtain ⟨doc, object⟩ := Option.isSome_iff_exists.mp present
        simp [Lists.entries, object, mem_doc_append]
      · have other : e ≠ c := fun same => here same.symm
        simp [Lists.entries, Function.update_of_ne here, other]

theorem note_counter_le (s : State) (site : SiteId) (key : TupleKey) (n : Nat) :
    s.counter ≤ (s.noteN site key n).counter := by
  by_cases own : site = s.me
  · subst own
    simp only [State.counter, State.noteN, Function.update_self, Option.getD_some]
    split <;> omega
  · rw [note_counter_other s site key n own]

theorem integrate_counter_le (s : State) (o : Operation) : s.counter ≤ (s.integrate o).counter := by
  obtain ⟨key, noted⟩ := integrate_noted s o
  rw [noted]
  exact note_counter_le s _ _ _

theorem rebuild_counter_le (s : State) (doc : Doc) : s.counter ≤ (rebuildFromAutomerge s doc).1.counter := by
  have rows : ∀ (ops : List Operation) (s : State), s.counter ≤ (ops.foldl State.integrate s).counter := by
    intro ops
    induction ops with
    | nil => exact fun s => le_refl _
    | cons o tail ih => exact fun s => (integrate_counter_le s o).trans (ih (s.integrate o))
  obtain ⟨v, state⟩ := rebuild_state s doc
  rw [state, integrated_eq]
  exact rows _ s

theorem rebuild_log_inside (s : State) (doc : Doc) (o : Operation) (member : o ∈ (rebuildFromAutomerge s doc).1.log) :
    o ∈ s.log ∨ o ∈ doc.ops := by
  obtain ⟨v, state⟩ := rebuild_state s doc
  rw [state, with_valid_log, integrated_log, List.mem_append, List.mem_append] at member
  rcases member with old | policy | document
  · exact Or.inl old
  · obtain ⟨p, row, rfl⟩ := List.mem_map.mp policy
    exact Or.inr ((policy_mem_ops doc p).mpr (List.mem_filter.mp row).1)
  · obtain ⟨d, row, rfl⟩ := List.mem_map.mp document
    exact Or.inr ((document_mem_ops doc d).mpr (List.mem_filter.mp row).1)

theorem rebuild_log_covers (s : State) (doc : Doc) (o : Operation) (member : o ∈ doc.ops) :
    ∃ x ∈ (rebuildFromAutomerge s doc).1.log, x.dot = o.dot ∧ (x = o ∨ x ∈ s.log) := by
  obtain ⟨v, state⟩ := rebuild_state s doc
  rw [state, with_valid_log, integrated_log]
  cases o with
  | policy p =>
      rw [policy_mem_ops] at member
      by_cases known : p.dot ∈ (s.log.filterMap Operation.asPolicy).map PolicyOp.dot
      · obtain ⟨q, old, dot⟩ := (mem_policies s.log p.dot).mp known
        exact ⟨_, List.mem_append_left _ old, dot, Or.inr old⟩
      · have row : p ∈ newPolicies s doc := List.mem_filter.mpr ⟨member, by simpa using known⟩
        exact ⟨_, by simp [row], rfl, Or.inl rfl⟩
  | document d =>
      rw [document_mem_ops] at member
      by_cases known : d.dot ∈ (s.log.filterMap Operation.asDocument).map DocOp.dot
      · obtain ⟨e, old, dot⟩ := (mem_documents s.log d.dot).mp known
        exact ⟨_, List.mem_append_left _ old, dot, Or.inr old⟩
      · have row : d ∈ newDocuments s doc := List.mem_filter.mpr ⟨member, by simpa using known⟩
        exact ⟨_, by simp [row], rfl, Or.inl rfl⟩

section Keeps

variable (net : Network) (d : Deployment) (kept : Stored net d)

include kept

theorem accepted_unique (a b : Accepted) (aIn : a ∈ d.accepted) (bIn : b ∈ d.accepted) (same : a.op.dot = b.op.dot) :
    a = b := List.inj_on_of_nodup_map kept.distinct aIn bIn same

omit kept in
theorem kept_before (i : SiteId) (o : Operation) (s : State) (a : Accepted) (member : a ∈ d.accepted) :
    a ∈ (d.accept net i o s).accepted := List.mem_append_left _ member

section Accept

variable (i : SiteId) (o : Operation) (s : State) (server : i ∈ net.servers)
variable (dot : o.dot = ⟨i, (d.server i).state.counter + 1⟩) (me : s.me = i)
variable (log : s.log = (d.server i).state.log ++ [o]) (counter : (d.server i).state.counter + 1 ≤ s.counter)

omit kept in
theorem accepted_split (a : Accepted) (member : a ∈ (d.accept net i o s).accepted) :
    a ∈ d.accepted ∨ a = ⟨o, i, net.held (d.server i).lists⟩ :=
  (List.mem_append.mp member).imp_right List.mem_singleton.mp

omit kept in
theorem accepted_new : ⟨o, i, net.held (d.server i).lists⟩ ∈ (d.accept net i o s).accepted := by
  simp [Deployment.accept]

omit kept in
theorem accept_entries_grow (j c : SiteId) (x : Operation) (member : x ∈ (d.server j).lists.entries c) :
    x ∈ ((d.accept net i o s).server j).lists.entries c := by
  have each := accept_each net d i o s
  refine each (fun j server => ∀ c x, x ∈ (d.server j).lists.entries c → x ∈ server.lists.entries c) ?_ ?_ j c x member
  · exact fun c x member => (mem_append_entries net (d.server i).lists o c x).mpr (Or.inl member)
  · exact fun j _ c x member => member

include dot counter

theorem accept_bound (a : Accepted) (member : a ∈ (d.accept net i o s).accepted) :
    a.op.dot.n ≤ ((d.accept net i o s).server a.op.dot.site).state.counter := by
  have each := accept_each net d i o s
  refine each (fun j server => a.op.dot.site = j → a.op.dot.n ≤ server.state.counter) ?_ ?_ _ rfl
  · intro emitter
    rcases accepted_split net d i o s a member with before | rfl
    · have bound := kept.bound a before
      rw [emitter] at bound
      exact bound.trans ((Nat.le_succ _).trans counter)
    · rw [dot]
      exact counter
  · intro j other emitter
    rcases accepted_split net d i o s a member with before | rfl
    · exact emitter ▸ kept.bound a before
    · rw [dot] at emitter
      exact absurd emitter.symm other

omit counter in
theorem accept_distinct : ((d.accept net i o s).accepted.map (fun a => a.op.dot)).Nodup := by
  apply dots_append_nodup (fun a : Accepted => a.op.dot) d.accepted _ kept.distinct
  intro a member same
  have bound := kept.bound a member
  have value : a.op.dot = o.dot := same
  rw [value, dot] at bound
  simp at bound

omit dot counter in
theorem accept_stored (a : Accepted) (member : a ∈ (d.accept net i o s).accepted) (c : SiteId)
    (chosen : a.held.argmax (net.rank a.op) = some c) :
    a.op ∈ ((d.accept net i o s).server a.author).lists.entries c := by
  have each := accept_each net d i o s
  rcases accepted_split net d i o s a member with before | rfl
  · exact accept_entries_grow net d i o s _ _ _ (kept.stored a before c chosen)
  · refine each (fun j server => i = j → o ∈ server.lists.entries c) ?_ ?_ i rfl
    · exact fun _ => (mem_append_entries net (d.server i).lists o c o).mpr (Or.inr ⟨rfl, chosen⟩)
    · exact fun j other same => absurd same.symm other

omit dot counter in
theorem accept_origin (j c : SiteId) (x : Operation) (member : x ∈ ((d.accept net i o s).server j).lists.entries c)
    (known : c ∈ net.servers) :
    ∃ a ∈ (d.accept net i o s).accepted, a.op = x ∧ a.held.argmax (net.rank x) = some c := by
  have each := accept_each net d i o s
  refine each (fun _ server => ∀ c x, x ∈ server.lists.entries c → c ∈ net.servers →
    ∃ a ∈ (d.accept net i o s).accepted, a.op = x ∧ a.held.argmax (net.rank x) = some c) ?_ ?_ j c x member known
  · intro c x member known
    rcases (mem_append_entries net (d.server i).lists o c x).mp member with before | ⟨rfl, chosen⟩
    · obtain ⟨a, aIn, rest⟩ := kept.origin i c x before known
      exact ⟨a, kept_before net d i o s a aIn, rest⟩
    · exact ⟨_, accepted_new net d i x s, rfl, chosen⟩
  · intro j _ c x member known
    obtain ⟨a, aIn, rest⟩ := kept.origin j c x member known
    exact ⟨a, kept_before net d i o s a aIn, rest⟩

include log

omit dot counter in
theorem accept_logged (j : SiteId) (x : Operation) (member : x ∈ ((d.accept net i o s).server j).state.log) :
    ∃ a ∈ (d.accept net i o s).accepted, a.op = x := by
  have each := accept_each net d i o s
  refine each (fun _ server => ∀ x ∈ server.state.log, ∃ a ∈ (d.accept net i o s).accepted, a.op = x) ?_ ?_ j x member
  · intro x member
    rw [log, List.mem_append, List.mem_singleton] at member
    rcases member with before | rfl
    · obtain ⟨a, aIn, equal⟩ := kept.logged i x before
      exact ⟨a, kept_before net d i o s a aIn, equal⟩
    · exact ⟨_, accepted_new net d i x s, rfl⟩
  · intro j _ x member
    obtain ⟨a, aIn, equal⟩ := kept.logged j x member
    exact ⟨a, kept_before net d i o s a aIn, equal⟩

omit dot counter in
theorem accept_winner (j : SiteId) (x : Operation) (member : x ∈ ((d.accept net i o s).server j).state.log)
    (best : net.servers.argmax (net.rank x) = some j) : x ∈ ((d.accept net i o s).server j).lists.entries j := by
  have each := accept_each net d i o s
  refine each (fun j server => ∀ x ∈ server.state.log, net.servers.argmax (net.rank x) = some j →
    x ∈ server.lists.entries j) ?_ (fun j _ => kept.winner j) j x member best
  intro x member best
  rw [log, List.mem_append, List.mem_singleton] at member
  rcases member with before | rfl
  · exact (mem_append_entries net (d.server i).lists o i x).mpr (Or.inl (kept.winner i x before best))
  · exact (mem_append_entries net (d.server i).lists x i x).mpr
      (Or.inr ⟨rfl, held_argmax net _ x i best (kept.own i)⟩)

include server me

theorem stored_accept : Stored net (d.accept net i o s) := by
  have each := accept_each net d i o s
  constructor
  · exact each (fun j server => server.state.me = j) me (fun j _ => kept.me j)
  · refine each (fun j server => (server.lists j).isSome = true) ?_ (fun j _ => kept.own j)
    exact (append_present net _ o i).trans (kept.own i)
  · exact accept_bound net d kept i o s dot counter
  · exact accept_distinct net d kept i o s dot
  · intro a member
    rcases accepted_split net d i o s a member with before | rfl
    · exact kept.authors a before
    · exact ⟨server, fun c present => ((mem_held net _ c).mp present).1⟩
  · exact accept_stored net d kept i o s
  · exact accept_origin net d kept i o s
  · exact accept_logged net d kept i o s log
  · exact accept_winner net d kept i o s log

end Accept

theorem stored_sync (i j : SiteId) (merged : Lists) (server : i ∈ net.servers)
    (delivered : ListsDelivered net (d.server i).lists (d.server j).lists merged) :
    Stored net (d.put i ⟨(d.server i).state, merged⟩) := by
  have each := server_put_each d i ⟨(d.server i).state, merged⟩
  constructor
  · exact each (fun k server => server.state.me = k) (kept.me i) (fun k _ => kept.me k)
  · exact each (fun k server => (server.lists k).isSome = true) (delivered.kept i server (kept.own i)) (fun k _ => kept.own k)
  · intro a member
    refine each (fun k server => a.op.dot.site = k → a.op.dot.n ≤ server.state.counter) ?_ ?_ _ rfl
    · exact fun emitter => emitter ▸ kept.bound a member
    · exact fun k _ emitter => emitter ▸ kept.bound a member
  · exact kept.distinct
  · exact kept.authors
  · intro a member c chosen
    have known := (kept.authors a member).2 c (List.argmax_mem chosen)
    have placed := kept.stored a member c chosen
    refine each (fun k server => a.author = k → a.op ∈ server.lists.entries c) ?_ ?_ _ rfl
    · exact fun author => delivered.keptEntries c known a.op (author ▸ placed)
    · exact fun k _ author => author ▸ placed
  · refine each (fun _ server => ∀ c x, x ∈ server.lists.entries c → c ∈ net.servers →
      ∃ a ∈ d.accepted, a.op = x ∧ a.held.argmax (net.rank x) = some c) ?_ (fun k _ => kept.origin k)
    intro c x member known
    rcases delivered.knownEntries c known x member with mine | theirs
    · exact kept.origin i c x mine known
    · exact kept.origin j c x theirs known
  · exact each (fun _ server => ∀ x ∈ server.state.log, ∃ a ∈ d.accepted, a.op = x) (kept.logged i) (fun k _ => kept.logged k)
  · refine each (fun k server => ∀ x ∈ server.state.log, net.servers.argmax (net.rank x) = some k →
      x ∈ server.lists.entries k) ?_ (fun k _ => kept.winner k)
    exact fun x member best => delivered.keptEntries i server x (kept.winner i x member best)

theorem stored_rebuild (i : SiteId) : Stored net (d.put i
    ⟨(rebuildFromAutomerge (d.server i).state (net.read (d.server i).lists)).1, (d.server i).lists⟩) := by
  have inside := rebuild_log_inside (d.server i).state (net.read (d.server i).lists)
  have counter := rebuild_counter_le (d.server i).state (net.read (d.server i).lists)
  have me : (rebuildFromAutomerge (d.server i).state (net.read (d.server i).lists)).1.me = i := by
    obtain ⟨v, state⟩ := rebuild_state (d.server i).state (net.read (d.server i).lists)
    rw [state]
    exact (integrated_me _ _).trans (kept.me i)
  generalize (rebuildFromAutomerge (d.server i).state (net.read (d.server i).lists)).1 = s at inside counter me ⊢
  have read : ∀ o, o ∈ (net.read (d.server i).lists).ops →
      ∃ c ∈ net.servers, (net.held (d.server i).lists).argmax (net.rank o) = some c ∧ o ∈ (d.server i).lists.entries c := by
    intro o member
    obtain ⟨c, chosen, entry⟩ := (mem_read net _ o).mp member
    exact ⟨c, ((mem_held net _ c).mp (List.argmax_mem chosen)).1, chosen, entry⟩
  have each := server_put_each d i ⟨s, (d.server i).lists⟩
  constructor
  · exact each (fun k server => server.state.me = k) me (fun k _ => kept.me k)
  · exact each (fun k server => (server.lists k).isSome = true) (kept.own i) (fun k _ => kept.own k)
  · intro a member
    refine each (fun k server => a.op.dot.site = k → a.op.dot.n ≤ server.state.counter) ?_ ?_ _ rfl
    · intro emitter
      have bound := kept.bound a member
      rw [emitter] at bound
      exact bound.trans counter
    · exact fun k _ emitter => emitter ▸ kept.bound a member
  · exact kept.distinct
  · exact kept.authors
  · intro a member c chosen
    have placed := kept.stored a member c chosen
    refine each (fun k server => a.author = k → a.op ∈ server.lists.entries c) ?_ ?_ _ rfl
    · exact fun author => author ▸ placed
    · exact fun k _ author => author ▸ placed
  · exact each (fun _ server => ∀ c x, x ∈ server.lists.entries c → c ∈ net.servers →
      ∃ a ∈ d.accepted, a.op = x ∧ a.held.argmax (net.rank x) = some c) (kept.origin i) (fun k _ => kept.origin k)
  · refine each (fun _ server => ∀ x ∈ server.state.log, ∃ a ∈ d.accepted, a.op = x) ?_ (fun k _ => kept.logged k)
    intro x member
    rcases inside x member with old | new
    · exact kept.logged i x old
    · obtain ⟨c, known, _, entry⟩ := read x new
      obtain ⟨a, aIn, equal, _⟩ := kept.origin i c x entry known
      exact ⟨a, aIn, equal⟩
  · refine each (fun k server => ∀ x ∈ server.state.log, net.servers.argmax (net.rank x) = some k →
      x ∈ server.lists.entries k) ?_ (fun k _ => kept.winner k)
    intro x member best
    rcases inside x member with old | new
    · exact kept.winner i x old best
    · obtain ⟨c, _, chosen, entry⟩ := read x new
      have own := held_argmax net (d.server i).lists x i best (kept.own i)
      rw [chosen, Option.some.injEq] at own
      exact own ▸ entry

theorem stored_step (next : Deployment) (step : ServerStep net d next) : Stored net next := by
  cases step with
  | updatePolicy i target right effect p s doc server ok =>
      obtain ⟨_, rfl, rfl, _⟩ := (update_policy_ok _ _ _ _ _ _ _ _).mp ok
      apply stored_accept net d kept i _ _ server
      · rw [dot_policy, freshPolicy, kept.me i]
      · rw [effect_policy_me, allocated_me, kept.me i]
      · rw [effect_policy_log, allocated_log]
      · rw [← allocated_counter]
        exact integrate_counter_le _ (.policy _)
  | updateDocument i edit e s doc server ok =>
      obtain ⟨_, rfl, rfl, _⟩ := (update_document_ok _ _ _ _ _ _).mp ok
      apply stored_accept net d kept i _ _ server
      · rw [dot_document, freshDocument, kept.me i]
      · rw [effect_document_me, allocated_me, kept.me i]
      · rw [effect_document_log, allocated_log]
      · rw [← allocated_counter]
        exact integrate_counter_le _ (.document _)
  | sync i j merged server peer delivered => exact stored_sync net d kept i j merged server delivered
  | rebuild i server => exact stored_rebuild net d kept i

end Keeps

theorem stored_init (net : Network) (strategies : SiteId → Strategy) : Stored net (Deployment.init strategies) := by
  have start : ∀ a, a ∉ (Deployment.init strategies).accepted := fun _ => List.not_mem_nil
  constructor
  · exact fun _ => rfl
  · intro i
    simp [Deployment.init, Server.start, newStateFromBytes]
  · exact fun a member => absurd member (start a)
  · exact List.nodup_nil
  · exact fun a member => absurd member (start a)
  · exact fun a member => absurd member (start a)
  · intro j c o member
    obtain ⟨doc, object, entry⟩ := (mem_entries _ c o).mp member
    have empty : doc = newSharedDoc := by
      by_cases own : c = j
      · subst own
        simpa [Deployment.init, Server.start, newStateFromBytes] using object.symm
      · simp [Deployment.init, Server.start, newStateFromBytes, Function.update_of_ne own] at object
    rw [empty] at entry
    exact absurd entry (by simp [newSharedDoc, Doc.ops])
  · exact fun j o member => absurd member List.not_mem_nil
  · exact fun j o member => absurd member List.not_mem_nil

theorem stored_run (net : Network) (strategies : SiteId → Strategy) (d : Deployment) (run : Deployed net strategies d) :
    Stored net d := by
  induction run with
  | init => exact stored_init net strategies
  | step d next _ step ih => exact stored_step net d ih next step

def Deployment.rebuiltLog (net : Network) (d : Deployment) (j : SiteId) : List Operation :=
  (rebuildFromAutomerge (d.server j).state (net.read (d.server j).lists)).1.log

def NothingLost (net : Network) (d : Deployment) : Prop :=
  ∀ a ∈ d.accepted, ∀ j ∈ net.servers, a.op ∈ d.rebuiltLog net j

theorem nothing_lost_iff (net : Network) (strategies : SiteId → Strategy) (d : Deployment)
    (run : Deployed net strategies d) (synced : Synced net d) :
    NothingLost net d ↔ ∀ a ∈ d.accepted, ∀ c ∈ net.servers.argmax (net.rank a.op), c ∈ a.held := by
  have kept := stored_run net strategies d run
  constructor
  · intro everywhere a member c best
    have known := List.argmax_mem best
    have entry : a.op ∈ (d.server c).lists.entries c := by
      rcases rebuild_log_inside _ _ a.op (everywhere a member c known) with old | new
      · exact kept.winner c a.op old best
      · obtain ⟨e, chosen, entry⟩ := (mem_read net _ a.op).mp new
        have own := held_argmax net (d.server c).lists a.op c best (kept.own c)
        rw [chosen, Option.some.injEq] at own
        exact own ▸ entry
    obtain ⟨b, bIn, equal, chosen⟩ := kept.origin c c a.op entry known
    have same := accepted_unique net d kept b a bIn member (congrArg Operation.dot equal)
    exact same ▸ List.argmax_mem chosen
  · intro early a member j server
    obtain ⟨author, inside⟩ := kept.authors a member
    obtain ⟨c, best⟩ : ∃ c, net.servers.argmax (net.rank a.op) = some c := by
      cases chosen : net.servers.argmax (net.rank a.op) with
      | none =>
          rw [List.argmax_eq_none] at chosen
          rw [chosen] at author
          exact absurd author List.not_mem_nil
      | some c => exact ⟨c, rfl⟩
    have known := List.argmax_mem best
    have placed := kept.stored a member c (argmax_present net a.op a.held inside c best (early a member c best))
    -- The winning object is everywhere by now, with the entry in it.
    have present : ((d.server j).lists c).isSome = true := by
      rw [(synced j server c known c known).1]
      exact kept.own c
    have entry := (synced a.author author j server c known).2 a.op placed
    have read : a.op ∈ (net.read (d.server j).lists).ops :=
      (mem_read net _ a.op).mpr ⟨c, held_argmax net _ a.op c best present, entry⟩
    obtain ⟨x, xIn, dot, either⟩ := rebuild_log_covers (d.server j).state (net.read (d.server j).lists) a.op read
    rcases either with same | old
    · exact same ▸ xIn
    · obtain ⟨b, bIn, equal⟩ := kept.logged j x old
      have same := accepted_unique net d kept b a bIn member ((congrArg Operation.dot equal).trans dot)
      rw [same] at equal
      exact equal ▸ xIn

instance (net : Network) (own other merged : Lists) : Decidable (ListsDelivered net own other merged) :=
  decidable_of_iff ((∀ c ∈ net.servers, (own c).isSome = true → (merged c).isSome = true) ∧
      (∀ c ∈ net.servers, (merged c).isSome = true → (own c).isSome = true ∨ (other c).isSome = true) ∧
      (∀ c ∈ net.servers, ∀ o ∈ own.entries c, o ∈ merged.entries c) ∧
      (∀ c ∈ net.servers, ∀ o ∈ merged.entries c, o ∈ own.entries c ∨ o ∈ other.entries c) ∧
      ∀ c ∈ net.servers, ((merged.entries c).map Operation.dot).Nodup)
    ⟨fun all => ⟨all.1, all.2.1, all.2.2.1, all.2.2.2.1, all.2.2.2.2⟩,
      fun sync => ⟨sync.kept, sync.known, sync.keptEntries, sync.knownEntries, sync.once⟩⟩

instance (net : Network) (d : Deployment) : Decidable (Synced net d) :=
  inferInstanceAs (Decidable (∀ i ∈ net.servers, ∀ j ∈ net.servers, ∀ c ∈ net.servers,
    ((d.server i).lists c).isSome = ((d.server j).lists c).isSome ∧
      ∀ o ∈ (d.server i).lists.entries c, o ∈ (d.server j).lists.entries c))

inductive ServerAction where
  | policy (server target : SiteId) (right : Right) (effect : Effect)
  | document (server : SiteId) (edit : TextEdit)
  | sync (server peer : SiteId)
  | rebuild (server : SiteId)
deriving DecidableEq, Repr

def Lists.join (own other : Lists) : Lists := fun c =>
  match own c, other c with
  | none, theirs => theirs
  | some mine, none => some mine
  | some mine, some theirs => some
      { policyLog := mine.policyLog ++ theirs.policyLog.filter (fun p => p ∉ mine.policyLog)
        docLog := mine.docLog ++ theirs.docLog.filter (fun e => e ∉ mine.docLog) }

def Deployment.act (net : Network) (d : Deployment) : ServerAction → Option Deployment
  | .policy i target right effect =>
      if i ∈ net.servers then
        match updatePolicy (d.server i).state (net.read (d.server i).lists) target right effect with
        | .ok (p, s, _) => some (d.accept net i (.policy p) s)
        | .error _ => none
      else none
  | .document i edit =>
      if i ∈ net.servers then
        match updateDocument (d.server i).state (net.read (d.server i).lists) edit with
        | .ok (e, s, _) => some (d.accept net i (.document e) s)
        | .error _ => none
      else none
  | .sync i j =>
      let merged := (d.server i).lists.join (d.server j).lists
      if i ∈ net.servers ∧ j ∈ net.servers ∧ ListsDelivered net (d.server i).lists (d.server j).lists merged then
        some (d.put i ⟨(d.server i).state, merged⟩)
      else none
  | .rebuild i =>
      if i ∈ net.servers then
        some (d.put i ⟨(rebuildFromAutomerge (d.server i).state (net.read (d.server i).lists)).1, (d.server i).lists⟩)
      else none

def Deployment.play (net : Network) (d : Deployment) : List ServerAction → Option Deployment
  | [] => some d
  | action :: rest => (d.act net action).bind (fun next => next.play net rest)

theorem server_act_step (net : Network) (d next : Deployment) (action : ServerAction) (done : d.act net action = some next) :
    ServerStep net d next := by
  cases action with
  | policy i target right effect =>
      rw [Deployment.act] at done
      split at done
      next server =>
        split at done
        next p s doc ok =>
          cases done
          exact .updatePolicy d i target right effect p s doc server ok
        next => cases done
      next => cases done
  | document i edit =>
      rw [Deployment.act] at done
      split at done
      next server =>
        split at done
        next e s doc ok =>
          cases done
          exact .updateDocument d i edit e s doc server ok
        next => cases done
      next => cases done
  | sync i j =>
      rw [Deployment.act] at done
      split at done
      next all =>
        cases done
        exact .sync d i j _ all.1 all.2.1 all.2.2
      next => cases done
  | rebuild i =>
      rw [Deployment.act] at done
      split at done
      next server =>
        cases done
        exact .rebuild d i server
      next => cases done

theorem deployed_play (net : Network) (strategies : SiteId → Strategy) (actions : List ServerAction) (d last : Deployment)
    (run : Deployed net strategies d) (done : d.play net actions = some last) : Deployed net strategies last := by
  induction actions generalizing d with
  | nil =>
      cases done
      exact run
  | cons action rest ih =>
      rw [Deployment.play, Option.bind_eq_some_iff] at done
      obtain ⟨next, acted, played⟩ := done
      exact ih next (.step d next run (server_act_step net d next action acted)) played

def pair : Network where
  servers := ["A", "B"]
  policyRank c := if c = "B" then 1 else 0
  docRank c := if c = "B" then 1 else 0
  policyApart := by decide
  docApart := by decide

def deploy (actions : List ServerAction) : Option Deployment :=
  (Deployment.init (fun _ => .integrity)).play pair actions

theorem deployed (actions : List ServerAction) (whole : (deploy actions).isSome = true) :
    Deployed pair (fun _ => .integrity) ((deploy actions).get whole) :=
  deployed_play pair _ actions _ _ .init (Option.some_get whole).symm

def lateWrite : List ServerAction :=
  [.sync "A" "B", .rebuild "A", .document "A" (.insert 0 'a'), .sync "B" "A", .rebuild "B"]

theorem late_write_runs : (deploy lateWrite).isSome = true := by decide +kernel

theorem late_write_kept : NothingLost pair ((deploy lateWrite).get late_write_runs) :=
  (nothing_lost_iff pair _ _ (deployed lateWrite late_write_runs) (by decide +kernel)).mpr (by decide +kernel)

def earlyWrite : List ServerAction :=
  [.document "A" (.insert 0 'a'), .sync "A" "B", .sync "B" "A", .rebuild "A", .rebuild "B"]

theorem early_write_runs : (deploy earlyWrite).isSome = true := by decide +kernel

theorem early_write_lost : ¬ ∀ net strategies d, Deployed net strategies d → Synced net d → NothingLost net d := by
  intro holds
  have everywhere := holds pair _ _ (deployed earlyWrite early_write_runs) (by decide +kernel)
  exact absurd everywhere (by unfold NothingLost; decide +kernel)

end Accure
