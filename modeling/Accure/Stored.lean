import Accure.Faithful
import Accure.Messages

set_option autoImplicit false

namespace Accure

open Serial

structure Codecs where
  policy : Bincode PolicyOp
  document : Bincode DocOp

structure Codecs.Invert (codecs : Codecs) : Prop where
  policy : codecs.policy.Inverts
  document : codecs.document.Inverts

section Lists

variable {Id : Type}

inductive Value where
  | bytes (bytes : Bytes)
  | other
deriving DecidableEq, Repr

-- Automerge gives every place of a list an id of its own.
structure Element (Id : Type) where
  id : Id
  value : Value
deriving DecidableEq, Repr

structure StoredDoc (Id : Type) where
  policyLog : List (Element Id)
  docLog : List (Element Id)

def Element.bytes (element : Element Id) : Option Bytes :=
  match element.value with
  | .bytes bytes => some bytes
  | .other => none

def appendBytes (list : List (Element Id)) (id : Id) (bytes : Bytes) : List (Element Id) := list ++ [⟨id, .bytes bytes⟩]

def readListBytes (list : List (Element Id)) : List Bytes := list.filterMap Element.bytes

variable (codecs : Codecs)

def readPolicyLog (doc : StoredDoc Id) : List PolicyOp :=
  (readListBytes doc.policyLog).filterMap fun bytes => (codecs.policy.deserialize bytes).toOption

def readDocLog (doc : StoredDoc Id) : List DocOp :=
  (readListBytes doc.docLog).filterMap fun bytes => (codecs.document.deserialize bytes).toOption

def StoredDoc.read (doc : StoredDoc Id) : Doc := ⟨readPolicyLog codecs doc, readDocLog codecs doc⟩

-- There is no result where the op cannot be encoded, since expect panics.
def updatePolicyStored (s : State) (doc : StoredDoc Id) (id : Id) (target : SiteId) (right : Right) (effect : Effect) :
    Option (Except String (PolicyOp × State × StoredDoc Id)) :=
  if !eval s s.me .admin then some (.error "local site lacks Admin right")
  else
    let t : AccessTuple := ⟨target, right⟩
    let (n, s) := s.allocN (TupleKey.policy t)
    let lastDotSeen := lastDotForWriteTuple s target
    let p : PolicyOp :=
      { dot := ⟨s.me, n⟩
        target := target
        right := right
        effect := effect
        deps := currentTopLevelDeps s t
        lastDotSeen := lastDotSeen
        missingDots := deriveMissingDots s target lastDotSeen }
    match codecs.policy.serialize p with
    | .error _ => none
    | .ok bytes => some (.ok (p, effectPolicy s p, { doc with policyLog := appendBytes doc.policyLog id bytes }))

def updateDocumentStored (s : State) (doc : StoredDoc Id) (id : Id) (edit : TextEdit) :
    Option (Except String (DocOp × State × StoredDoc Id)) :=
  if !eval s s.me .write then some (.error "local site lacks Write right")
  else
    let (n, s) := s.allocN (TupleKey.document s.me)
    let d : DocOp := { dot := ⟨s.me, n⟩, deps := currentTopLevelDeps s ⟨s.me, .write⟩, edit := edit }
    match codecs.document.serialize d with
    | .error _ => none
    | .ok bytes => some (.ok (d, effectDocument s d, { doc with docLog := appendBytes doc.docLog id bytes }))

structure Entry (Id : Type) where
  id : Id
  op : Option Operation

def Element.policy (element : Element Id) : Option PolicyOp :=
  element.bytes.bind fun bytes => (codecs.policy.deserialize bytes).toOption

def Element.document (element : Element Id) : Option DocOp :=
  element.bytes.bind fun bytes => (codecs.document.deserialize bytes).toOption

def StoredDoc.entries (doc : StoredDoc Id) : List (Entry Id) :=
  doc.policyLog.map (fun element => ⟨element.id, (element.policy codecs).map .policy⟩) ++
    doc.docLog.map (fun element => ⟨element.id, (element.document codecs).map .document⟩)

def StoredDoc.ids (doc : StoredDoc Id) : List Id := doc.policyLog.map Element.id ++ doc.docLog.map Element.id

theorem entries_ids (doc : StoredDoc Id) : (doc.entries codecs).map Entry.id = doc.ids := by
  rw [StoredDoc.entries, StoredDoc.ids, List.map_append, List.map_map, List.map_map]
  rfl

theorem read_policy_log_eq (doc : StoredDoc Id) : readPolicyLog codecs doc = doc.policyLog.filterMap (Element.policy codecs) :=
  List.filterMap_filterMap ..

theorem read_doc_log_eq (doc : StoredDoc Id) : readDocLog codecs doc = doc.docLog.filterMap (Element.document codecs) :=
  List.filterMap_filterMap ..

theorem entries_ops (doc : StoredDoc Id) : (doc.entries codecs).filterMap Entry.op = (doc.read codecs).ops := by
  rw [StoredDoc.entries, List.filterMap_append, List.filterMap_map, List.filterMap_map, Doc.ops, StoredDoc.read,
    read_policy_log_eq, read_doc_log_eq, List.map_filterMap, List.map_filterMap]
  rfl

section Updates

variable (inverts : codecs.Invert)

include inverts

theorem read_append_policy (doc : StoredDoc Id) (id : Id) (p : PolicyOp) (bytes : Bytes)
    (encoded : codecs.policy.serialize p = .ok bytes) :
    StoredDoc.read codecs { doc with policyLog := appendBytes doc.policyLog id bytes } =
      { (doc.read codecs) with policyLog := (doc.read codecs).policyLog ++ [p] } := by
  have decoded : codecs.policy.deserialize bytes = .ok p := inverts.policy p bytes encoded
  simp [StoredDoc.read, readPolicyLog, readListBytes, appendBytes, List.filterMap_append, Element.bytes, decoded,
    Except.toOption, readDocLog]

theorem read_append_document (doc : StoredDoc Id) (id : Id) (d : DocOp) (bytes : Bytes)
    (encoded : codecs.document.serialize d = .ok bytes) :
    StoredDoc.read codecs { doc with docLog := appendBytes doc.docLog id bytes } =
      { (doc.read codecs) with docLog := (doc.read codecs).docLog ++ [d] } := by
  have decoded : codecs.document.deserialize bytes = .ok d := inverts.document d bytes encoded
  simp [StoredDoc.read, readPolicyLog, readListBytes, appendBytes, List.filterMap_append, Element.bytes, decoded,
    Except.toOption, readDocLog]

theorem update_policy_stored_ok (s next : State) (doc stored : StoredDoc Id) (id : Id) (target : SiteId) (right : Right)
    (effect : Effect) (p : PolicyOp)
    (ok : updatePolicyStored codecs s doc id target right effect = some (.ok (p, next, stored))) :
    updatePolicy s (doc.read codecs) target right effect = .ok (p, next, (stored.read codecs)) ∧
      ∃ bytes, codecs.policy.serialize p = .ok bytes ∧
        stored = { doc with policyLog := appendBytes doc.policyLog id bytes } := by
  rw [updatePolicyStored] at ok
  rw [updatePolicy]
  split at ok
  next => cases ok
  next admin =>
    rw [if_neg admin]
    dsimp only at ok ⊢
    split at ok
    next => cases ok
    next bytes encoded =>
      cases ok
      exact ⟨by rw [read_append_policy codecs inverts doc id _ bytes encoded], bytes, encoded, rfl⟩

theorem update_document_stored_ok (s next : State) (doc stored : StoredDoc Id) (id : Id) (edit : TextEdit) (d : DocOp)
    (ok : updateDocumentStored codecs s doc id edit = some (.ok (d, next, stored))) :
    updateDocument s (doc.read codecs) edit = .ok (d, next, (stored.read codecs)) ∧
      ∃ bytes, codecs.document.serialize d = .ok bytes ∧ stored = { doc with docLog := appendBytes doc.docLog id bytes } := by
  rw [updateDocumentStored] at ok
  rw [updateDocument]
  split at ok
  next => cases ok
  next write =>
    rw [if_neg write]
    dsimp only at ok ⊢
    split at ok
    next => cases ok
    next bytes encoded =>
      cases ok
      exact ⟨by rw [read_append_document codecs inverts doc id _ bytes encoded], bytes, encoded, rfl⟩

end Updates

end Lists

section Runs

variable {Id : Type} (codecs : Codecs)

structure StoredSite (Id : Type) where
  state : State
  doc : StoredDoc Id

-- The last two fields are ghost: the ops generated so far with their places, and
-- for each the places its author's lists held when it was appended.
structure StoredWorld (Id : Type) where
  site : SiteId → StoredSite Id
  made : List (Id × Operation)
  held : Id → List Id

def StoredWorld.init (strategies : SiteId → Strategy) : StoredWorld Id where
  site i := ⟨(State.new i (strategies i)).bootstrapSelf, ⟨[], []⟩⟩
  made := []
  held := fun _ => []

def StoredWorld.put (w : StoredWorld Id) (i : SiteId) (site : StoredSite Id) : StoredWorld Id :=
  { w with site := Function.update w.site i site }

def StoredWorld.generate [DecidableEq Id] (w : StoredWorld Id) (i : SiteId) (id : Id) (o : Operation) (site : StoredSite Id) :
    StoredWorld Id where
  site := Function.update w.site i site
  made := w.made ++ [(id, o)]
  held := Function.update w.held id (w.site i).doc.ids

def StoredWorld.Fresh (w : StoredWorld Id) (id : Id) : Prop :=
  id ∉ w.made.map Prod.fst ∧ ∀ i, id ∉ (w.site i).doc.ids

structure StoredSync (w : StoredWorld Id) (own other merged : StoredDoc Id) : Prop where
  kept : own.policyLog ⊆ merged.policyLog ∧ own.docLog ⊆ merged.docLog
  policies : ∀ element ∈ merged.policyLog, element ∈ own.policyLog ∨ element ∈ other.policyLog
  documents : ∀ element ∈ merged.docLog, element ∈ own.docLog ∨ element ∈ other.docLog
  once : merged.ids.Nodup
  causal : ∀ id ∈ merged.ids, ∀ before ∈ w.held id, before ∈ merged.ids
  policyOrder : merged.policyLog.Pairwise (fun earlier later => later.id ∉ w.held earlier.id)
  docOrder : merged.docLog.Pairwise (fun earlier later => later.id ∉ w.held earlier.id)

-- Other software that writes to the lists may put there, anywhere and at any
-- time, what does not decode.
inductive StoredStep [DecidableEq Id] : StoredWorld Id → StoredWorld Id → Prop where
  | updatePolicy (w : StoredWorld Id) (i target : SiteId) (right : Right) (effect : Effect) (id : Id) (p : PolicyOp)
      (s : State) (doc : StoredDoc Id) (fresh : w.Fresh id)
      (ok : updatePolicyStored codecs (w.site i).state (w.site i).doc id target right effect = some (.ok (p, s, doc))) :
      StoredStep w (w.generate i id (.policy p) ⟨s, doc⟩)
  | updateDocument (w : StoredWorld Id) (i : SiteId) (edit : TextEdit) (id : Id) (d : DocOp) (s : State)
      (doc : StoredDoc Id) (fresh : w.Fresh id)
      (ok : updateDocumentStored codecs (w.site i).state (w.site i).doc id edit = some (.ok (d, s, doc))) :
      StoredStep w (w.generate i id (.document d) ⟨s, doc⟩)
  | sync (w : StoredWorld Id) (i j : SiteId) (merged : StoredDoc Id)
      (delivered : StoredSync w (w.site i).doc (w.site j).doc merged) :
      StoredStep w (w.put i ⟨(w.site i).state, merged⟩)
  | rebuild (w : StoredWorld Id) (i : SiteId) :
      StoredStep w (w.put i ⟨(rebuildFromAutomerge (w.site i).state ((w.site i).doc.read codecs)).1, (w.site i).doc⟩)
  | foreignPolicy (w : StoredWorld Id) (i : SiteId) (before after : List (Element Id)) (element : Element Id)
      (split : (w.site i).doc.policyLog = before ++ after) (fresh : w.Fresh element.id) (idle : element.policy codecs = none) :
      StoredStep w (w.put i ⟨(w.site i).state, { (w.site i).doc with policyLog := before ++ element :: after }⟩)
  | foreignDocument (w : StoredWorld Id) (i : SiteId) (before after : List (Element Id)) (element : Element Id)
      (split : (w.site i).doc.docLog = before ++ after) (fresh : w.Fresh element.id) (idle : element.document codecs = none) :
      StoredStep w (w.put i ⟨(w.site i).state, { (w.site i).doc with docLog := before ++ element :: after }⟩)

inductive StoredRun [DecidableEq Id] (strategies : SiteId → Strategy) : StoredWorld Id → Prop where
  | init : StoredRun strategies (StoredWorld.init strategies)
  | step (w next : StoredWorld Id) (before : StoredRun strategies w) (step : StoredStep codecs w next) :
      StoredRun strategies next

def Written (made : List (Id × Operation)) (entry : Entry Id) : Prop :=
  match entry.op with
  | some o => (entry.id, o) ∈ made
  | none => entry.id ∉ made.map Prod.fst

structure StoredAs (w : StoredWorld Id) (v : World) : Prop where
  state : ∀ i, (v.site i).state = (w.site i).state
  doc : ∀ i, (v.site i).doc = (w.site i).doc.read codecs
  history : v.history = w.made.map Prod.snd
  once : (w.made.map Prod.fst).Nodup
  written : ∀ i, ∀ entry ∈ (w.site i).doc.entries codecs, Written w.made entry
  held : ∀ x ∈ w.made, ∀ d ∈ v.held x.2.dot, ∃ y ∈ w.made, y.2.dot = d ∧ y.1 ∈ w.held x.1

theorem mem_entries_ops (doc : StoredDoc Id) (o : Operation) :
    o ∈ (doc.read codecs).ops ↔ ∃ entry ∈ doc.entries codecs, entry.op = some o := by
  rw [← entries_ops, List.mem_filterMap]

theorem mem_stored_entries (doc : StoredDoc Id) (entry : Entry Id) : entry ∈ doc.entries codecs ↔
    (∃ element ∈ doc.policyLog, entry = ⟨element.id, (element.policy codecs).map .policy⟩) ∨
      ∃ element ∈ doc.docLog, entry = ⟨element.id, (element.document codecs).map .document⟩ := by
  rw [StoredDoc.entries, List.mem_append, List.mem_map, List.mem_map]
  simp only [eq_comm]

theorem entries_kept (own merged : StoredDoc Id) (policies : own.policyLog ⊆ merged.policyLog)
    (documents : own.docLog ⊆ merged.docLog) : (own.entries codecs) ⊆ (merged.entries codecs) := by
  intro entry member
  rw [mem_stored_entries] at member ⊢
  exact member.imp (fun ⟨element, here, same⟩ => ⟨element, policies here, same⟩)
    fun ⟨element, here, same⟩ => ⟨element, documents here, same⟩

theorem entries_known (own other merged : StoredDoc Id)
    (policies : ∀ element ∈ merged.policyLog, element ∈ own.policyLog ∨ element ∈ other.policyLog)
    (documents : ∀ element ∈ merged.docLog, element ∈ own.docLog ∨ element ∈ other.docLog) (entry : Entry Id)
    (member : entry ∈ merged.entries codecs) : entry ∈ own.entries codecs ∨ entry ∈ other.entries codecs := by
  simp only [mem_stored_entries] at member ⊢
  rcases member with ⟨element, here, same⟩ | ⟨element, here, same⟩
  · exact (policies element here).imp (fun mine => Or.inl ⟨element, mine, same⟩) fun theirs => Or.inl ⟨element, theirs, same⟩
  · exact (documents element here).imp (fun mine => Or.inr ⟨element, mine, same⟩) fun theirs => Or.inr ⟨element, theirs, same⟩

section StoredAs

variable (w : StoredWorld Id) (v : World) (stands : StoredAs codecs w v)

include stands

theorem made_recorded (x : Id × Operation) (member : x ∈ w.made) : x.2 ∈ v.history := by
  rw [stands.history]
  exact List.mem_map_of_mem member

theorem made_unique (faithful : Faithful v) (x y : Id × Operation) (one : x ∈ w.made) (two : y ∈ w.made)
    (same : x.2.dot = y.2.dot) : x = y := by
  have distinct := history_distinct v faithful
  rw [stands.history, List.map_map] at distinct
  exact List.inj_on_of_nodup_map distinct one two same

theorem made_place (x y : Id × Operation) (one : x ∈ w.made) (two : y ∈ w.made) (same : x.1 = y.1) : x = y :=
  List.inj_on_of_nodup_map stands.once one two same

theorem stands_put (i : SiteId) (s : State) (doc : StoredDoc Id) (written : ∀ entry ∈ doc.entries codecs, Written w.made entry) :
    StoredAs codecs (w.put i ⟨s, doc⟩) (v.put i ⟨s, (doc.read codecs)⟩) := by
  refine ⟨?_, ?_, stands.history, stands.once, ?_, stands.held⟩
  · intro j
    by_cases here : j = i
    · simp [World.put, StoredWorld.put, here]
    · simpa [World.put, StoredWorld.put, here] using stands.state j
  · intro j
    by_cases here : j = i
    · simp [World.put, StoredWorld.put, here]
    · simpa [World.put, StoredWorld.put, here] using stands.doc j
  · intro j entry member
    by_cases here : j = i
    · rw [StoredWorld.put, here] at member
      exact written entry (by simpa using member)
    · exact stands.written j entry (by simpa [StoredWorld.put, here] using member)

theorem stands_generate [DecidableEq Id] (i : SiteId) (id : Id) (o : Operation) (s : State) (doc : StoredDoc Id)
    (fresh : w.Fresh id)
    (grown : ∀ entry ∈ doc.entries codecs, entry ∈ (w.site i).doc.entries codecs ∨ entry = ⟨id, some o⟩)
    (faithful : Faithful (v.generate i o ⟨s, (doc.read codecs)⟩)) :
    StoredAs codecs (w.generate i id o ⟨s, doc⟩) (v.generate i o ⟨s, (doc.read codecs)⟩) := by
  have old (j : SiteId) (entry : Entry Id) (member : entry ∈ (w.site j).doc.entries codecs) :
      Written (w.made ++ [(id, o)]) entry := by
    have before := stands.written j entry member
    rw [Written] at before ⊢
    cases op : entry.op with
    | some o' =>
        rw [op] at before
        exact List.mem_append_left _ before
    | none =>
        rw [op] at before
        rw [List.map_append, List.mem_append, not_or, List.map_singleton, List.mem_singleton]
        refine ⟨before, fun same => fresh.2 j ?_⟩
        rw [← entries_ids codecs]
        exact List.mem_map.mpr ⟨entry, member, same⟩
  refine ⟨?_, ?_, ?_, ?_, ?_, ?_⟩
  · intro j
    by_cases here : j = i
    · simp [World.generate, StoredWorld.generate, here]
    · simpa [World.generate, StoredWorld.generate, here] using stands.state j
  · intro j
    by_cases here : j = i
    · simp [World.generate, StoredWorld.generate, here]
    · simpa [World.generate, StoredWorld.generate, here] using stands.doc j
  · simp [World.generate, StoredWorld.generate, stands.history]
  · rw [StoredWorld.generate, List.map_append, List.nodup_append]
    refine ⟨stands.once, by simp, ?_⟩
    intro a before b new same
    rw [List.map_singleton, List.mem_singleton] at new
    rw [same, new] at before
    exact fresh.1 before
  · intro j entry member
    by_cases here : j = i
    · rcases grown entry (by simpa [StoredWorld.generate, here] using member) with before | rfl
      · exact old i entry before
      · exact List.mem_append_right _ (List.mem_singleton_self _)
    · exact old j entry (by simpa [StoredWorld.generate, here] using member)
  · intro x member d dHeld
    rcases List.mem_append.mp member with before | new
    · have apart : x.2.dot ≠ o.dot := by
        have distinct := history_distinct _ faithful
        rw [World.generate, List.map_append, List.nodup_append] at distinct
        exact distinct.2.2 _ (List.mem_map_of_mem (made_recorded codecs w v stands x before)) _ (by simp)
      have place : x.1 ≠ id := fun same => fresh.1 (same ▸ List.mem_map_of_mem before)
      have heldBefore : d ∈ v.held x.2.dot := by simpa [World.generate, Function.update_of_ne apart] using dHeld
      obtain ⟨y, made, dot, held⟩ := stands.held x before d heldBefore
      refine ⟨y, List.mem_append_left _ made, dot, ?_⟩
      simpa [StoredWorld.generate, Function.update_of_ne place] using held
    · obtain rfl := List.mem_singleton.mp new
      have heldHere : d ∈ (v.site i).doc.dots := by simpa [World.generate] using dHeld
      rw [stands.doc i, Doc.dots, List.mem_map] at heldHere
      obtain ⟨o', listed, dot⟩ := heldHere
      obtain ⟨entry, here, op⟩ := (mem_entries_ops codecs _ o').mp listed
      have made := stands.written i entry here
      rw [Written, op] at made
      refine ⟨(entry.id, o'), List.mem_append_left _ made, dot, ?_⟩
      have inside : entry.id ∈ (w.site i).doc.ids := entries_ids codecs _ ▸ List.mem_map_of_mem here
      simpa [StoredWorld.generate] using inside

section Merged

variable (merged : StoredDoc Id) (written : ∀ entry ∈ merged.entries codecs, Written w.made entry)

include written

omit stands in
theorem written_made (entry : Entry Id) (member : entry ∈ merged.entries codecs) (o : Operation) (op : entry.op = some o) :
    (entry.id, o) ∈ w.made := by
  have here := written entry member
  rwa [Written, op] at here

theorem merged_once (faithful : Faithful v) (once : merged.ids.Nodup) : (merged.read codecs).dots.Nodup := by
  rw [Doc.dots, ← entries_ops, List.map_filterMap, List.nodup_iff_pairwise_ne, List.pairwise_filterMap]
  rw [← entries_ids codecs, List.nodup_iff_pairwise_ne, List.pairwise_map] at once
  refine once.imp_of_mem fun {a b} aIn bIn differ => ?_
  intro d aDot d' bDot same
  obtain ⟨o, aOp, rfl⟩ := Option.map_eq_some_iff.mp aDot
  obtain ⟨o', bOp, rfl⟩ := Option.map_eq_some_iff.mp bDot
  have aMade := written_made codecs w merged written a aIn o aOp
  have bMade := written_made codecs w merged written b bIn o' bOp
  exact differ (congrArg Prod.fst (made_unique codecs w v stands faithful _ _ aMade bMade same))

theorem merged_causal (causal : ∀ id ∈ merged.ids, ∀ before ∈ w.held id, before ∈ merged.ids) (o : Operation)
    (member : o ∈ (merged.read codecs).ops) (d : Dot) (dHeld : d ∈ v.held o.dot) : d ∈ (merged.read codecs).dots := by
  obtain ⟨entry, here, op⟩ := (mem_entries_ops codecs _ o).mp member
  obtain ⟨y, made, dot, held⟩ := stands.held _ (written_made codecs w merged written entry here o op) d dHeld
  rw [← entries_ids codecs] at causal
  obtain ⟨before, beforeIn, place⟩ := List.mem_map.mp (causal entry.id (List.mem_map_of_mem here) y.1 held)
  have stood := written before beforeIn
  rw [Written] at stood
  cases beforeOp : before.op with
  | none =>
      rw [beforeOp] at stood
      exact absurd (List.mem_map.mpr ⟨y, made, place.symm⟩) stood
  | some o' =>
      rw [beforeOp] at stood
      have same := made_place codecs w v stands _ y stood made place
      refine List.mem_map.mpr ⟨o', (mem_entries_ops codecs _ o').mpr ⟨before, beforeIn, beforeOp⟩, ?_⟩
      rw [← dot, ← same]

theorem merged_order (faithful : Faithful v) (a b : Entry Id) (aIn : a ∈ merged.entries codecs) (bIn : b ∈ merged.entries codecs)
    (after : b.id ∉ w.held a.id) (o o' : Operation) (aOp : a.op = some o) (bOp : b.op = some o') :
    o'.dot ∉ v.held o.dot := by
  intro dHeld
  obtain ⟨y, made, dot, held⟩ := stands.held _ (written_made codecs w merged written a aIn o aOp) _ dHeld
  have same := made_unique codecs w v stands faithful y _ made (written_made codecs w merged written b bIn o' bOp) dot
  rw [same] at held
  exact after held

end Merged

theorem stands_sync (faithful : Faithful v) (i j : SiteId) (merged : StoredDoc Id)
    (delivered : StoredSync w (w.site i).doc (w.site j).doc merged) :
    (∀ entry ∈ merged.entries codecs, Written w.made entry) ∧
      CausalSync v (v.site i).doc (v.site j).doc (merged.read codecs) := by
  have known := entries_known codecs _ _ merged delivered.policies delivered.documents
  have written (entry : Entry Id) (member : entry ∈ merged.entries codecs) : Written w.made entry :=
    (known entry member).elim (stands.written i entry) (stands.written j entry)
  refine ⟨written, ⟨⟨?_, ?_, merged_once codecs w v stands merged written faithful delivered.once,
    merged_causal codecs w v stands merged written delivered.causal⟩, ?_, ?_⟩⟩
  · intro o member
    rw [stands.doc i] at member
    obtain ⟨entry, here, op⟩ := (mem_entries_ops codecs _ o).mp member
    exact (mem_entries_ops codecs _ o).mpr ⟨entry, entries_kept codecs _ _ delivered.kept.1 delivered.kept.2 here, op⟩
  · intro o member
    obtain ⟨entry, here, op⟩ := (mem_entries_ops codecs _ o).mp member
    rw [stands.doc i, stands.doc j]
    exact (known entry here).imp (fun mine => (mem_entries_ops codecs _ o).mpr ⟨entry, mine, op⟩)
      fun theirs => (mem_entries_ops codecs _ o).mpr ⟨entry, theirs, op⟩
  · rw [StoredDoc.read, read_policy_log_eq, List.pairwise_filterMap]
    refine delivered.policyOrder.imp_of_mem fun {a b} aIn bIn after => ?_
    intro p aPolicy q bPolicy
    exact merged_order codecs w v stands merged written faithful ⟨a.id, _⟩ ⟨b.id, _⟩
      ((mem_stored_entries codecs _ _).mpr (Or.inl ⟨a, aIn, rfl⟩))
      ((mem_stored_entries codecs _ _).mpr (Or.inl ⟨b, bIn, rfl⟩)) after (.policy p) (.policy q) (by rw [aPolicy]; rfl)
      (by rw [bPolicy]; rfl)
  · rw [StoredDoc.read, read_doc_log_eq, List.pairwise_filterMap]
    refine delivered.docOrder.imp_of_mem fun {a b} aIn bIn after => ?_
    intro d aDocument e bDocument
    exact merged_order codecs w v stands merged written faithful ⟨a.id, _⟩ ⟨b.id, _⟩
      ((mem_stored_entries codecs _ _).mpr (Or.inr ⟨a, aIn, rfl⟩))
      ((mem_stored_entries codecs _ _).mpr (Or.inr ⟨b, bIn, rfl⟩)) after (.document d) (.document e) (by rw [aDocument]; rfl)
      (by rw [bDocument]; rfl)

end StoredAs

theorem stands_init (strategies : SiteId → Strategy) :
    StoredAs codecs (StoredWorld.init strategies : StoredWorld Id) (World.init strategies) :=
  ⟨fun _ => rfl, fun _ => rfl, rfl, List.nodup_nil, fun _ _ member => absurd member List.not_mem_nil,
    fun _ member => absurd member List.not_mem_nil⟩

theorem stands_foreign (w : StoredWorld Id) (v : World) (stands : StoredAs codecs w v) (i : SiteId) (doc : StoredDoc Id)
    (same : doc.read codecs = (w.site i).doc.read codecs)
    (known : ∀ entry ∈ doc.entries codecs,
      entry ∈ (w.site i).doc.entries codecs ∨ (entry.op = none ∧ w.Fresh entry.id)) :
    StoredAs codecs (w.put i ⟨(w.site i).state, doc⟩) v := by
  have written (entry : Entry Id) (member : entry ∈ doc.entries codecs) : Written w.made entry := by
    rcases known entry member with before | ⟨idle, fresh⟩
    · exact stands.written i entry before
    · rw [Written, idle]
      exact fresh.1
  have put := stands_put codecs w v stands i (w.site i).state doc written
  have here : (⟨(w.site i).state, (doc.read codecs)⟩ : Site) = v.site i := by rw [same, ← stands.state i, ← stands.doc i]
  rwa [here, World.put, Function.update_eq_self] at put

theorem stored_site_step [DecidableEq Id] (inverts : codecs.Invert) (w next : StoredWorld Id) (v : World)
    (stands : StoredAs codecs w v) (faithful : Faithful v) (step : StoredStep codecs w next) :
    ∃ v', (v' = v ∨ Step CausalSync v v') ∧ StoredAs codecs next v' := by
  have kept (v' : World) (moved : Step CausalSync v v') : Faithful v' :=
    faithful_step CausalSync (fun _ _ _ _ sync => sync.toDelivered) v v' faithful moved
  cases step with
  | updatePolicy i target right effect id p s doc fresh ok =>
      obtain ⟨updated, bytes, encoded, rfl⟩ := update_policy_stored_ok codecs inverts _ _ _ _ _ _ _ _ _ ok
      rw [← stands.state i, ← stands.doc i] at updated
      have moved : Step CausalSync v (v.generate i (.policy p) ⟨s, _⟩) :=
        .updatePolicy v i target right effect p s _ updated
      refine ⟨_, Or.inr moved, stands_generate codecs w v stands i id (.policy p) s _ fresh ?_ (kept _ moved)⟩
      have decoded : codecs.policy.deserialize bytes = .ok p := inverts.policy p bytes encoded
      intro entry member
      rw [mem_stored_entries] at member ⊢
      rcases member with ⟨element, here, same⟩ | ⟨element, here, same⟩
      · rcases List.mem_append.mp here with old | new
        · exact Or.inl (Or.inl ⟨element, old, same⟩)
        · obtain rfl := List.mem_singleton.mp new
          exact Or.inr (same.trans (by simp [Element.policy, Element.bytes, decoded, Except.toOption]))
      · exact Or.inl (Or.inr ⟨element, here, same⟩)
  | updateDocument i edit id d s doc fresh ok =>
      obtain ⟨updated, bytes, encoded, rfl⟩ := update_document_stored_ok codecs inverts _ _ _ _ _ _ _ ok
      rw [← stands.state i, ← stands.doc i] at updated
      have moved : Step CausalSync v (v.generate i (.document d) ⟨s, _⟩) := .updateDocument v i edit d s _ updated
      refine ⟨_, Or.inr moved, stands_generate codecs w v stands i id (.document d) s _ fresh ?_ (kept _ moved)⟩
      have decoded : codecs.document.deserialize bytes = .ok d := inverts.document d bytes encoded
      intro entry member
      rw [mem_stored_entries] at member ⊢
      rcases member with ⟨element, here, same⟩ | ⟨element, here, same⟩
      · exact Or.inl (Or.inl ⟨element, here, same⟩)
      · rcases List.mem_append.mp here with old | new
        · exact Or.inl (Or.inr ⟨element, old, same⟩)
        · obtain rfl := List.mem_singleton.mp new
          exact Or.inr (same.trans (by simp [Element.document, Element.bytes, decoded, Except.toOption]))
  | sync i j merged delivered =>
      obtain ⟨written, causal⟩ := stands_sync codecs w v stands faithful i j merged delivered
      have moved : Step CausalSync v (v.put i ⟨(v.site i).state, merged.read codecs⟩) := .sync v i j (merged.read codecs) causal
      rw [stands.state i] at moved
      exact ⟨_, Or.inr moved, stands_put codecs w v stands i _ merged written⟩
  | rebuild i =>
      have moved : Step CausalSync v (v.put i ⟨(rebuildFromAutomerge (v.site i).state (v.site i).doc).1, (v.site i).doc⟩) :=
        .rebuild v i
      rw [stands.state i, stands.doc i] at moved
      exact ⟨_, Or.inr moved, stands_put codecs w v stands i _ _ (stands.written i)⟩
  | foreignPolicy i before after element split fresh idle =>
      refine ⟨v, Or.inl rfl, stands_foreign codecs w v stands i _ ?_ ?_⟩
      · simp [StoredDoc.read, read_policy_log_eq, readDocLog, split, List.filterMap_append, idle]
      · intro entry member
        rw [mem_stored_entries] at member ⊢
        rcases member with ⟨place, here, rfl⟩ | ⟨place, here, rfl⟩
        · rcases List.mem_append.mp here with old | new
          · exact Or.inl (Or.inl ⟨place, split ▸ List.mem_append_left _ old, rfl⟩)
          rcases List.mem_cons.mp new with rfl | old
          · exact Or.inr ⟨by rw [idle]; rfl, fresh⟩
          · exact Or.inl (Or.inl ⟨place, split ▸ List.mem_append_right _ old, rfl⟩)
        · exact Or.inl (Or.inr ⟨place, here, rfl⟩)
  | foreignDocument i before after element split fresh idle =>
      refine ⟨v, Or.inl rfl, stands_foreign codecs w v stands i _ ?_ ?_⟩
      · simp [StoredDoc.read, read_doc_log_eq, readPolicyLog, split, List.filterMap_append, idle]
      · intro entry member
        rw [mem_stored_entries] at member ⊢
        rcases member with ⟨place, here, rfl⟩ | ⟨place, here, rfl⟩
        · exact Or.inl (Or.inl ⟨place, here, rfl⟩)
        · rcases List.mem_append.mp here with old | new
          · exact Or.inl (Or.inr ⟨place, split ▸ List.mem_append_left _ old, rfl⟩)
          rcases List.mem_cons.mp new with rfl | old
          · exact Or.inr ⟨by rw [idle]; rfl, fresh⟩
          · exact Or.inl (Or.inr ⟨place, split ▸ List.mem_append_right _ old, rfl⟩)

-- The lists of bytes refine the lists of ops: whatever is in them that does not
-- decode, the sites are those of a causal run.
theorem stored_runs_causal [DecidableEq Id] (inverts : codecs.Invert) (strategies : SiteId → Strategy) (w : StoredWorld Id)
    (run : StoredRun codecs strategies w) : ∃ v, Reachable CausalSync strategies v ∧ v.history = w.made.map Prod.snd ∧
      ∀ i, (v.site i).state = (w.site i).state ∧ (v.site i).doc = (w.site i).doc.read codecs := by
  have standing : ∃ v, Reachable CausalSync strategies v ∧ StoredAs codecs w v := by
    induction run with
    | init => exact ⟨_, .init, stands_init codecs strategies⟩
    | step w next _ step ih =>
        obtain ⟨v, reached, stands⟩ := ih
        have faithful := faithful_run CausalSync (fun _ _ _ _ sync => sync.toDelivered) strategies v reached
        obtain ⟨v', moved, standsNext⟩ := stored_site_step codecs inverts w next v stands faithful step
        rcases moved with rfl | moved
        · exact ⟨_, reached, standsNext⟩
        · exact ⟨v', .step v v' reached moved, standsNext⟩
  obtain ⟨v, reached, stands⟩ := standing
  exact ⟨v, reached, stands.history, fun i => ⟨stands.state i, stands.doc i⟩⟩

def dotFormat : Format Dot := (string.pair (word 8)).via (fun d => some (d.site, d.n)) (fun f => some ⟨f.1, f.2⟩) (by
  intro d f same
  rw [← Option.some.inj same])

def Effect.index : Effect → Nat
  | .allow => 0
  | .deny => 1

def effectFormat : Format Effect := (word 4).via (fun effect => some effect.index) (fun n => [Effect.allow, .deny][n]?) (by
  intro effect n same
  cases effect <;> cases Option.some.inj same <;> rfl)

def policyFormat : Format PolicyOp :=
  (dotFormat.pair (string.pair (rightFormat.pair (effectFormat.pair (dotFormat.list.pair
    (dotFormat.option.pair dotFormat.list)))))).via
    (fun p => some (p.dot, p.target, p.right, p.effect, p.deps, p.lastDotSeen, p.missingDots))
    (fun f => some ⟨f.1, f.2.1, f.2.2.1, f.2.2.2.1, f.2.2.2.2.1, f.2.2.2.2.2.1, f.2.2.2.2.2.2⟩) (by
      intro p f same
      rw [← Option.some.inj same])

def decisionCodecs : Codecs := ⟨.ofFormat policyFormat, .ofFormat (.refused DocOp)⟩

theorem decision_codecs_invert : decisionCodecs.Invert := ⟨of_format_inverts _, of_format_inverts _⟩

theorem foreign_runs_causal : ∃ w : StoredWorld Nat, StoredRun decisionCodecs (fun _ => .integrity) w ∧
    (w.site "B").doc.policyLog.length = 2 ∧ ((w.site "B").doc.read decisionCodecs).policyLog.length = 1 ∧
    ∃ v, CausalRun .integrity v ∧ (v.site "B").doc = (w.site "B").doc.read decisionCodecs := by
  have accepted : ((updatePolicyStored decisionCodecs ((State.new "A" .integrity).bootstrapSelf) ⟨[], []⟩ 0 "B" .read .deny).map
      Except.isOk) = some true := by decide +kernel
  obtain ⟨result, updated, isOk⟩ := Option.map_eq_some_iff.mp accepted
  cases result with
  | error e => cases isOk
  | ok result =>
      obtain ⟨p, s, doc⟩ := result
      obtain ⟨_, bytes, encoded, rfl⟩ := update_policy_stored_ok decisionCodecs decision_codecs_invert _ _ _ _ _ _ _ _ _ updated
      have run : StoredRun decisionCodecs (fun _ => .integrity) (StoredWorld.init (fun _ => .integrity) : StoredWorld Nat) := .init
      have run := run.step _ _ (.updatePolicy _ "A" "B" .read .deny 0 p s _ ⟨nofun, nofun⟩ updated)
      have fresh (i : SiteId) : 1 ∉ ((StoredWorld.generate (StoredWorld.init fun _ => .integrity) "A" 0 (.policy p)
          ⟨s, ⟨appendBytes [] 0 bytes, []⟩⟩).site i).doc.ids := by
        by_cases here : i = "A"
        · subst here
          simp [StoredWorld.generate, appendBytes, StoredDoc.ids]
        · simp [StoredWorld.generate, StoredWorld.init, here, StoredDoc.ids]
      have run := run.step _ _ (.foreignPolicy _ "A" [] (appendBytes [] 0 bytes) ⟨1, .other⟩ rfl
        ⟨by simp [StoredWorld.generate, StoredWorld.init], fresh⟩ rfl)
      obtain ⟨w, run, siteA, siteB, none_⟩ : ∃ w : StoredWorld Nat, StoredRun decisionCodecs (fun _ => .integrity) w ∧
          (w.site "A").doc = ⟨⟨1, .other⟩ :: appendBytes [] 0 bytes, []⟩ ∧ (w.site "B").doc = ⟨[], []⟩ ∧
          w.held 0 = [] ∧ w.held 1 = [] := ⟨_, run, rfl, rfl, rfl, rfl⟩
      have delivered : StoredSync w (w.site "B").doc (w.site "A").doc (w.site "A").doc := by
        refine ⟨by simp [siteB], fun _ => Or.inr, fun _ => Or.inr, ?_, ?_, ?_, ?_⟩
        all_goals simp [siteA, appendBytes, StoredDoc.ids, none_]
      have run := run.step _ _ (.sync _ "B" "A" _ delivered)
      obtain ⟨v, reached, _, same⟩ := stored_runs_causal decisionCodecs decision_codecs_invert _ _ run
      refine ⟨_, run, ?_, ?_, v, reached, (same "B").2⟩
      · simp [StoredWorld.put, siteA, appendBytes]
      · have decoded : decisionCodecs.policy.deserialize bytes = .ok p := decision_codecs_invert.policy p bytes encoded
        have reads : (StoredDoc.read decisionCodecs (⟨⟨1, .other⟩ :: appendBytes [] 0 bytes, []⟩ : StoredDoc Nat)).policyLog =
          [bytes].filterMap fun bytes => (decisionCodecs.policy.deserialize bytes).toOption := rfl
        simp [StoredWorld.put, siteA, reads, decoded, Except.toOption]

end Runs

end Accure
