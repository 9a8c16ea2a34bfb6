import Mathlib.Data.List.Range
import Mathlib.Logic.Function.Basic
import Accure.Peer
import Accure.Updates

set_option autoImplicit false

namespace Accure.Peer

variable {Auto Sync Message Bytes : Type}

-- What this end has generated and the other end may still read from it. Nothing
-- leaves the channel once the writer has ended.
def Session.underWay (session : Session Bytes) : List (Parcel Bytes) :=
  session.wire.filterMap PeerMessage.parcel ++
    (if session.writer then session.channel ++ session.sending.toList else [])

def CaughtUp (w : Cluster Auto Sync Bytes) (e : ConnectionEnd) : Prop :=
  ∀ parcel ∈ w.generated (w.session e).site (w.session e.other).site,
    parcel ∈ w.handed (w.session e.other).site (w.session e).site ∨ parcel ∈ (w.session e).underWay

structure Introduced (w : Cluster Auto Sync Bytes) : Prop where
  hello : ∀ e s, .hello s ∈ (w.session e).wire → s = (w.session e).site
  greeted : ∀ e p, (w.session e).peerSite = some p → p = (w.session e.other).site
  silent : ∀ e, (w.session e).peerSite = none → (w.session e).channel = [] ∧ (w.session e).sending = none

structure Genuine (am : Automerge Auto Sync Message Bytes) (w : Cluster Auto Sync Bytes) : Prop where
  numbered : ∀ i j, (w.generated i j).map Parcel.number = List.range (w.generated i j).length
  decodes : ∀ i j, ∀ parcel ∈ w.generated i j, am.decode parcel.bytes ≠ none

-- One session at a time carries what a site sends to another, and carries it on
-- from where the other stands.
structure Carried (w : Cluster Auto Sync Bytes) : Prop where
  handed : ∀ i j, w.handed j i <+: w.generated i j
  inOrder : ∀ e, w.handed (w.session e.other).site (w.session e).site ++ (w.session e).underWay <+:
    w.generated (w.session e).site (w.session e.other).site
  single : ∀ a b, (w.session a).site = (w.session b).site → (w.session a.other).site = (w.session b.other).site →
    (w.session a).underWay ≠ [] → (w.session b).underWay ≠ [] → a = b

structure Orderly (am : Automerge Auto Sync Message Bytes) (w : Cluster Auto Sync Bytes) : Prop extends
  Introduced w, Genuine am w, Carried w

theorem other_ne (e : ConnectionEnd) : e.other ≠ e := by
  intro same
  have flipped : (!e.2) = e.2 := congrArg Prod.snd same
  exact Bool.not_ne_self e.2 flipped

@[simp] theorem other_other (e : ConnectionEnd) : e.other.other = e := by simp [ConnectionEnd.other]

@[simp] theorem put_here (w : Cluster Auto Sync Bytes) (e : ConnectionEnd) (session : Session Bytes) :
    (w.put e session).session e = session := Function.update_self _ _ _

theorem put_elsewhere (w : Cluster Auto Sync Bytes) (e a : ConnectionEnd) (session : Session Bytes) (apart : a ≠ e) :
    (w.put e session).session a = w.session a := Function.update_of_ne apart _ _

theorem put_site (w : Cluster Auto Sync Bytes) (e : ConnectionEnd) (session : Session Bytes)
    (site : session.site = (w.session e).site) (a : ConnectionEnd) :
    ((w.put e session).session a).site = (w.session a).site := by
  by_cases here : a = e
  · rw [here, put_here, site]
  · rw [put_elsewhere w e a session here]

theorem push_here (lists : SiteId → SiteId → List (Parcel Bytes)) (i j : SiteId) (parcel : Parcel Bytes) :
    push lists i j parcel i j = lists i j ++ [parcel] := by
  rw [push, Function.update_self, Function.update_self]

theorem push_elsewhere (lists : SiteId → SiteId → List (Parcel Bytes)) (i j a b : SiteId) (parcel : Parcel Bytes)
    (apart : ¬ (a = i ∧ b = j)) : push lists i j parcel a b = lists a b := by
  by_cases first : a = i
  · subst first
    rw [push, Function.update_self, Function.update_of_ne (fun second => apart ⟨rfl, second⟩)]
  · rw [push, Function.update_of_ne first]

theorem push_grows (lists : SiteId → SiteId → List (Parcel Bytes)) (i j a b : SiteId) (parcel : Parcel Bytes) :
    lists a b <+: push lists i j parcel a b := by
  by_cases same : a = i ∧ b = j
  · rw [same.1, same.2, push_here]
    exact List.prefix_append _ _
  · rw [push_elsewhere lists i j a b parcel same]

theorem connect_session (w : Cluster Auto Sync Bytes) (i j : SiteId) (a : ConnectionEnd) :
    (a.1 = w.connections ∧ ∃ site, (w.connect i j).session a = .opened site) ∨
      (a.1 ≠ w.connections ∧ (w.connect i j).session a = w.session a) := by
  obtain ⟨n, side⟩ := a
  by_cases fresh : n = w.connections
  · subst fresh
    cases side with
    | true => exact Or.inl ⟨rfl, i, (put_elsewhere _ _ _ _ (by simp)).trans (put_here _ _ _)⟩
    | false => exact Or.inl ⟨rfl, j, put_here _ _ _⟩
  · refine Or.inr ⟨fresh, (put_elsewhere _ _ _ _ ?_).trans (put_elsewhere _ _ _ _ ?_)⟩
    · exact fun same => fresh (congrArg Prod.fst same)
    · exact fun same => fresh (congrArg Prod.fst same)

section Introduced

variable (w : Cluster Auto Sync Bytes) (introduced : Introduced w)

include introduced

theorem put_introduced (e : ConnectionEnd) (session : Session Bytes) (site : session.site = (w.session e).site)
    (hello : ∀ s, .hello s ∈ session.wire → .hello s ∈ (w.session e).wire)
    (greeted : ∀ p, session.peerSite = some p → p = (w.session e.other).site)
    (silent : session.peerSite = none → session.channel = [] ∧ session.sending = none) : Introduced (w.put e session) := by
  have sites := put_site w e session site
  refine ⟨?_, ?_, ?_⟩
  · intro a s member
    rw [sites]
    by_cases here : a = e
    · rw [here, put_here] at member
      exact here ▸ introduced.hello e s (hello s member)
    · rw [put_elsewhere w e a session here] at member
      exact introduced.hello a s member
  · intro a p known
    rw [sites]
    by_cases here : a = e
    · rw [here, put_here] at known
      exact here ▸ greeted p known
    · rw [put_elsewhere w e a session here] at known
      exact introduced.greeted a p known
  · intro a unknown
    by_cases here : a = e
    · rw [here, put_here] at unknown ⊢
      exact silent unknown
    · rw [put_elsewhere w e a session here] at unknown ⊢
      exact introduced.silent a unknown

theorem connect_introduced (i j : SiteId) : Introduced (w.connect i j) := by
  have sessions := connect_session w i j
  refine ⟨?_, ?_, ?_⟩
  · intro a s member
    rcases sessions a with ⟨_, site, opened⟩ | ⟨_, same⟩
    · rw [opened] at member ⊢
      simpa [Session.opened] using member
    · rw [same] at member ⊢
      exact introduced.hello a s member
  · intro a p known
    rcases sessions a with ⟨_, site, opened⟩ | ⟨old, same⟩
    · simp [opened, Session.opened] at known
    · rcases sessions a.other with ⟨fresh, _⟩ | ⟨_, sameOther⟩
      · exact absurd fresh old
      · rw [same] at known
        rw [sameOther]
        exact introduced.greeted a p known
  · intro a unknown
    rcases sessions a with ⟨_, site, opened⟩ | ⟨_, same⟩
    · rw [opened]
      exact ⟨rfl, rfl⟩
    · rw [same] at unknown ⊢
      exact introduced.silent a unknown

end Introduced

section Carried

variable (w : Cluster Auto Sync Bytes) (carried : Carried w)

include carried

theorem put_carried (e : ConnectionEnd) (session : Session Bytes) (site : session.site = (w.session e).site)
    (underWay : session.underWay <+: (w.session e).underWay) : Carried (w.put e session) := by
  have sites := put_site w e session site
  have less : ∀ a, ((w.put e session).session a).underWay <+: (w.session a).underWay := by
    intro a
    by_cases here : a = e
    · rw [here, put_here]
      exact underWay
    · rw [put_elsewhere w e a session here]
  refine ⟨carried.handed, ?_, ?_⟩
  · intro a
    rw [sites, sites]
    exact ((List.prefix_append_right_inj _).mpr (less a)).trans (carried.inOrder a)
  · intro a b first second aBusy bBusy
    rw [sites, sites] at first second
    have more : ∀ c, ((w.put e session).session c).underWay ≠ [] → (w.session c).underWay ≠ [] :=
      fun c busy none => busy (List.prefix_nil.mp (none ▸ less c))
    exact carried.single a b first second (more a aBusy) (more b bBusy)

theorem connect_carried (i j : SiteId) : Carried (w.connect i j) := by
  have sessions := connect_session w i j
  have busyOld : ∀ a, ((w.connect i j).session a).underWay ≠ [] → (w.connect i j).session a = w.session a ∧
      (w.connect i j).session a.other = w.session a.other := by
    intro a busy
    rcases sessions a with ⟨_, site, opened⟩ | ⟨old, same⟩
    · exact absurd (by rw [opened]; rfl) busy
    · exact ⟨same, (sessions a.other).elim (fun fresh => absurd fresh.1 old) And.right⟩
  refine ⟨carried.handed, ?_, ?_⟩
  · intro a
    by_cases none : ((w.connect i j).session a).underWay = []
    · rw [none, List.append_nil]
      exact carried.handed _ _
    · obtain ⟨same, sameOther⟩ := busyOld a none
      rw [same, sameOther]
      exact carried.inOrder a
  · intro a b first second aBusy bBusy
    obtain ⟨aSame, aOther⟩ := busyOld a aBusy
    obtain ⟨bSame, bOther⟩ := busyOld b bBusy
    rw [aSame, bSame] at first
    rw [aOther, bOther] at second
    exact carried.single a b first second (aSame ▸ aBusy) (bSame ▸ bBusy)

end Carried

section Generate

variable (am : Automerge Auto Sync Message Bytes) (w : Cluster Auto Sync Bytes) (e : ConnectionEnd) (bytes : Bytes)

theorem generate_generated (j : SiteId) : (w.generate am e j bytes).generated =
    push w.generated (w.session e).site j (w.parcel e j bytes) := rfl

theorem generate_site (j : SiteId) (a : ConnectionEnd) :
    ((w.generate am e j bytes).session a).site = (w.session a).site :=
  put_site w e { w.session e with sending := some (w.parcel e j bytes) } rfl a

theorem generate_elsewhere (j : SiteId) (a : ConnectionEnd) (apart : a ≠ e) :
    (w.generate am e j bytes).session a = w.session a := put_elsewhere _ e a _ apart

theorem generate_under_way (j : SiteId) (free : (w.session e).sending = none) :
    ((w.generate am e j bytes).session e).underWay =
      (w.session e).underWay ++ if (w.session e).writer then [w.parcel e j bytes] else [] := by
  have here : (w.generate am e j bytes).session e = { w.session e with sending := some (w.parcel e j bytes) } :=
    put_here _ e _
  rw [here, Session.underWay, Session.underWay, free]
  cases (w.session e).writer with
  | true => simp
  | false => simp

theorem generate_genuine (genuine : Genuine am w) (decodes : ∀ m, am.decode (am.encode m) = some m) (j : SiteId)
    (some_ : ((w.server (w.session e).site).generateSync am j).2 = some bytes) :
    Genuine am (w.generate am e j bytes) := by
  have generated := generate_generated am w e bytes j
  constructor
  · intro a b
    by_cases same : a = (w.session e).site ∧ b = j
    · rw [generated, same.1, same.2, push_here, List.map_append, genuine.numbered, List.length_append,
        List.length_singleton, List.range_succ]
      rfl
    · rw [generated, push_elsewhere _ _ j a b _ same]
      exact genuine.numbered a b
  · intro a b parcel member
    by_cases same : a = (w.session e).site ∧ b = j
    · rw [generated, same.1, same.2, push_here, List.mem_append, List.mem_singleton] at member
      rcases member with old | rfl
      · exact genuine.decodes _ j parcel old
      · obtain ⟨m, _, encoded⟩ := Option.map_eq_some_iff.mp some_
        rw [Cluster.parcel, ← encoded, decodes]
        exact Option.some_ne_none m
    · rw [generated, push_elsewhere _ _ j a b _ same] at member
      exact genuine.decodes a b parcel member

theorem generated_nodup (genuine : Genuine am w) (i j : SiteId) : (w.generated i j).Nodup := by
  apply List.Nodup.of_map Parcel.number
  rw [genuine.numbered]
  exact List.nodup_range

variable (carried : Carried w)

include carried

theorem caught_up_iff (genuine : Genuine am w) : CaughtUp w e ↔
    w.handed (w.session e.other).site (w.session e).site ++ (w.session e).underWay =
      w.generated (w.session e).site (w.session e.other).site := by
  constructor
  · intro caught
    obtain ⟨rest, whole⟩ := carried.inOrder e
    have none : rest = [] := by
      apply List.eq_nil_iff_forall_not_mem.mpr
      intro parcel member
      have nodup := generated_nodup am w genuine (w.session e).site (w.session e.other).site
      have inside := caught parcel (whole ▸ List.mem_append_right _ member)
      rw [← whole, List.nodup_append] at nodup
      exact nodup.2.2 parcel (List.mem_append.mpr inside) parcel member rfl
    rw [none, List.append_nil] at whole
    exact whole
  · intro whole parcel member
    rw [← whole] at member
    exact List.mem_append.mp member

variable (whole : w.handed (w.session e.other).site (w.session e).site ++ (w.session e).underWay =
  w.generated (w.session e).site (w.session e.other).site)

include whole

theorem others_quiet (a : ConnectionEnd) (apart : a ≠ e) (site : (w.session a).site = (w.session e).site)
    (other : (w.session a.other).site = (w.session e.other).site) : (w.session a).underWay = [] := by
  by_contra busy
  have inOrder := carried.inOrder a
  rw [site, other, ← whole, List.prefix_append_right_inj] at inOrder
  have here : (w.session e).underWay ≠ [] := fun none => busy (List.prefix_nil.mp (none ▸ inOrder))
  exact apart (carried.single a e site other busy here)

theorem generate_carried (free : (w.session e).sending = none) :
    Carried (w.generate am e (w.session e.other).site bytes) := by
  have quiet := others_quiet w e carried whole
  have elsewhere := generate_elsewhere am w e bytes (w.session e.other).site
  have longer : ((w.generate am e (w.session e.other).site bytes).session e).underWay <+:
      (w.session e).underWay ++ [w.parcel e (w.session e.other).site bytes] := by
    rw [generate_under_way am w e bytes (w.session e.other).site free, List.prefix_append_right_inj]
    cases (w.session e).writer <;> simp
  have sites := generate_site am w e bytes (w.session e.other).site
  have generated := generate_generated am w e bytes (w.session e.other).site
  have handed : ∀ i j, w.handed j i <+: (w.generate am e (w.session e.other).site bytes).generated i j :=
    fun i j => (carried.handed i j).trans (push_grows _ _ _ i j _)
  refine ⟨handed, ?_, ?_⟩
  · intro a
    rw [sites, sites]
    by_cases here : a = e
    · rw [here, generated, push_here, ← whole, List.append_assoc]
      exact (List.prefix_append_right_inj _).mpr longer
    · rw [elsewhere a here]
      by_cases pair : (w.session a).site = (w.session e).site ∧ (w.session a.other).site = (w.session e.other).site
      · rw [quiet a here pair.1 pair.2, List.append_nil]
        exact handed _ _
      · rw [generated, push_elsewhere _ _ _ _ _ _ pair]
        exact carried.inOrder a
  · intro a b first second aBusy bBusy
    rw [sites, sites] at first second
    have only : ∀ c, c ≠ e → ((w.generate am e (w.session e.other).site bytes).session c).underWay ≠ [] →
        ¬ ((w.session c).site = (w.session e).site ∧ (w.session c.other).site = (w.session e.other).site) :=
      fun c apart busy pair => busy (by rw [elsewhere c apart]; exact quiet c apart pair.1 pair.2)
    by_cases aHere : a = e
    · by_contra different
      have bApart : b ≠ e := fun same => different (aHere.trans same.symm)
      exact only b bApart bBusy ⟨aHere ▸ first.symm, aHere ▸ second.symm⟩
    · by_cases bHere : b = e
      · exact absurd ⟨bHere ▸ first, bHere ▸ second⟩ (only a aHere aBusy)
      · rw [elsewhere a aHere] at aBusy
        rw [elsewhere b bHere] at bBusy
        exact carried.single a b first second aBusy bBusy

end Generate

section Receive

variable (am : Automerge Auto Sync Message Bytes) (w : Cluster Auto Sync Bytes) (e : ConnectionEnd)
variable (peerSite : SiteId) (parcel : Parcel Bytes) (rest : List (PeerMessage Bytes))

def Cluster.shortened (w : Cluster Auto Sync Bytes) (e : ConnectionEnd) (rest : List (PeerMessage Bytes)) :
    Cluster Auto Sync Bytes := w.put e.other { w.session e.other with wire := rest }

theorem receive_session : (w.receive am e peerSite parcel rest).session = (w.shortened e rest).session := by
  rw [Cluster.receive]
  cases am.decode parcel.bytes <;> rfl

theorem receive_generated : (w.receive am e peerSite parcel rest).generated = w.generated := by
  rw [Cluster.receive]
  cases am.decode parcel.bytes <;> rfl

theorem receive_handed (readable : am.decode parcel.bytes ≠ none) : (w.receive am e peerSite parcel rest).handed =
    push w.handed (w.session e).site peerSite parcel := by
  rw [Cluster.receive]
  cases decoded : am.decode parcel.bytes with
  | none => exact absurd decoded readable
  | some m => rfl

theorem shortened_site (a : ConnectionEnd) : ((w.shortened e rest).session a).site = (w.session a).site :=
  put_site w e.other { w.session e.other with wire := rest } rfl a

variable (read : (w.session e.other).wire = .sync parcel :: rest)

include read

theorem shortened_under_way :
    (w.session e.other).underWay = parcel :: ((w.shortened e rest).session e.other).underWay := by
  rw [Cluster.shortened, put_here, Session.underWay, read]
  rfl

variable (carried : Carried w)

include carried

theorem read_generated : parcel ∈ w.generated (w.session e.other).site (w.session e).site := by
  have inOrder := carried.inOrder e.other
  rw [other_other, shortened_under_way w e parcel rest read] at inOrder
  exact inOrder.subset (by simp)

theorem readers_quiet (a : ConnectionEnd) (apart : a ≠ e.other) (site : (w.session a).site = (w.session e.other).site)
    (other : (w.session a.other).site = (w.session e).site) : (w.session a).underWay = [] := by
  by_contra busy
  have reading : (w.session e.other).underWay ≠ [] := by
    rw [shortened_under_way w e parcel rest read]
    exact List.cons_ne_nil _ _
  exact apart (carried.single a e.other site (by rw [other_other, other]) busy reading)

theorem receive_carried (readable : am.decode parcel.bytes ≠ none) :
    Carried (w.receive am e (w.session e.other).site parcel rest) := by
  have front := shortened_under_way w e parcel rest read
  have sites := shortened_site w e rest
  have quiet := readers_quiet w e parcel rest read carried
  have elsewhere : ∀ a, a ≠ e.other → (w.shortened e rest).session a = w.session a :=
    fun a apart => put_elsewhere w e.other a _ apart
  have next : w.handed (w.session e).site (w.session e.other).site ++ [parcel] ++
      ((w.shortened e rest).session e.other).underWay <+: w.generated (w.session e.other).site (w.session e).site := by
    have inOrder := carried.inOrder e.other
    rwa [other_other, front, List.append_cons] at inOrder
  have handed : ∀ i j, push w.handed (w.session e).site (w.session e.other).site parcel j i <+: w.generated i j := by
    intro i j
    by_cases pair : j = (w.session e).site ∧ i = (w.session e.other).site
    · rw [pair.1, pair.2, push_here]
      exact (List.prefix_append _ _).trans next
    · rw [push_elsewhere _ _ _ j i _ pair]
      exact carried.handed i j
  constructor
  · rw [receive_handed am w e _ parcel rest readable, receive_generated]
    exact handed
  · intro a
    rw [receive_handed am w e _ parcel rest readable, receive_generated, receive_session, sites, sites]
    by_cases here : a = e.other
    · rw [here, other_other, push_here]
      exact next
    · rw [elsewhere a here]
      by_cases pair : (w.session a.other).site = (w.session e).site ∧ (w.session a).site = (w.session e.other).site
      · rw [quiet a here pair.2 pair.1, List.append_nil]
        exact handed _ _
      · rw [push_elsewhere _ _ _ _ _ _ pair]
        exact carried.inOrder a
  · intro a b first second aBusy bBusy
    rw [receive_session] at first second aBusy bBusy
    rw [sites, sites] at first second
    have more : ∀ c, ((w.shortened e rest).session c).underWay ≠ [] → (w.session c).underWay ≠ [] := by
      intro c busy
      by_cases here : c = e.other
      · rw [here, front]
        exact List.cons_ne_nil _ _
      · rwa [elsewhere c here] at busy
    exact carried.single a b first second (more a aBusy) (more b bBusy)

end Receive

section Moves

variable (am : Automerge Auto Sync Message Bytes) (w : Cluster Auto Sync Bytes) (orderly : Orderly am w)

include orderly

theorem serve_orderly (i : SiteId) (server : Server Auto Sync) : Orderly am (w.serve i server) :=
  ⟨⟨orderly.hello, orderly.greeted, orderly.silent⟩, ⟨orderly.numbered, orderly.decodes⟩,
    ⟨orderly.handed, orderly.inOrder, orderly.single⟩⟩

theorem put_orderly (e : ConnectionEnd) (session : Session Bytes) (site : session.site = (w.session e).site)
    (hello : ∀ s, .hello s ∈ session.wire → .hello s ∈ (w.session e).wire)
    (peerSite : session.peerSite = (w.session e).peerSite)
    (silent : (w.session e).channel = [] ∧ (w.session e).sending = none → session.channel = [] ∧ session.sending = none)
    (underWay : session.underWay <+: (w.session e).underWay) : Orderly am (w.put e session) := by
  refine ⟨put_introduced w orderly.toIntroduced e session site hello ?_ ?_, ⟨orderly.numbered, orderly.decodes⟩,
    put_carried w orderly.toCarried e session site underWay⟩
  · exact fun p known => orderly.greeted e p (peerSite ▸ known)
  · exact fun unknown => silent (orderly.silent e (peerSite ▸ unknown))

theorem pop_orderly (e : ConnectionEnd) (s : SiteId) (rest : List (PeerMessage Bytes))
    (read : (w.session e).wire = .hello s :: rest) : Orderly am (w.put e { w.session e with wire := rest }) := by
  refine put_orderly am w orderly e _ rfl ?_ rfl id ?_
  · intro other member
    rw [read]
    exact List.mem_cons_of_mem _ member
  · rw [Session.underWay, Session.underWay, read]
    exact List.prefix_refl _

theorem greet_orderly (e : ConnectionEnd) (s : SiteId) (rest : List (PeerMessage Bytes))
    (unknown : (w.session e).peerSite = none) (read : (w.session e.other).wire = .hello s :: rest) :
    Orderly am ((w.put e.other { w.session e.other with wire := rest }).put e
      { w.session e with peerSite := some s, outbound := true, writer := true }) := by
  have popped := pop_orderly am w orderly e.other s rest read
  have named := orderly.hello e.other s (by simp [read])
  obtain ⟨channel, sending⟩ := orderly.silent e unknown
  have here : (w.put e.other { w.session e.other with wire := rest }).session e = w.session e :=
    put_elsewhere w e.other e _ (other_ne e).symm
  have there : ((w.put e.other { w.session e.other with wire := rest }).session e.other).site = (w.session e.other).site := by
    rw [put_here]
  refine ⟨put_introduced _ popped.toIntroduced e _ ?_ ?_ ?_ ?_, ⟨orderly.numbered, orderly.decodes⟩,
    put_carried _ popped.toCarried e _ ?_ ?_⟩
  · rw [here]
  · rw [here]
    exact fun _ member => member
  · intro p known
    rw [there, ← named]
    exact (Option.some.inj known).symm
  · exact fun impossible => absurd impossible (Option.some_ne_none s)
  · rw [here]
  · rw [here, Session.underWay, Session.underWay, channel, sending]
    cases (w.session e).writer <;> simp

theorem generate_orderly (decodes : ∀ m, am.decode (am.encode m) = some m) (e : ConnectionEnd) (peerSite : SiteId)
    (bytes : Bytes) (greeted : (w.session e).peerSite = some peerSite) (free : (w.session e).sending = none)
    (some_ : ((w.server (w.session e).site).generateSync am peerSite).2 = some bytes) (caught : CaughtUp w e) :
    Orderly am (w.generate am e peerSite bytes) := by
  have whole := (caught_up_iff am w e orderly.toCarried orderly.toGenuine).mp caught
  have peer := orderly.greeted e peerSite greeted
  have genuine := generate_genuine am w e bytes orderly.toGenuine decodes peerSite some_
  subst peer
  have introduced := put_introduced w orderly.toIntroduced e
    { w.session e with sending := some (w.parcel e (w.session e.other).site bytes) } rfl (fun _ member => member)
    (orderly.greeted e) (fun unknown => absurd (greeted.symm.trans unknown) (Option.some_ne_none _))
  exact ⟨⟨introduced.hello, introduced.greeted, introduced.silent⟩, genuine,
    generate_carried am w e bytes orderly.toCarried whole free⟩

theorem receive_orderly (e : ConnectionEnd) (peerSite : SiteId) (parcel : Parcel Bytes) (rest : List (PeerMessage Bytes))
    (greeted : (w.session e).peerSite = some peerSite) (read : (w.session e.other).wire = .sync parcel :: rest) :
    Orderly am (w.receive am e peerSite parcel rest) := by
  have peer := orderly.greeted e peerSite greeted
  subst peer
  have member := read_generated w e parcel rest read orderly.toCarried
  have readable := orderly.decodes _ _ parcel member
  have introduced : Introduced (w.shortened e rest) := by
    refine put_introduced w orderly.toIntroduced e.other _ rfl ?_ (orderly.greeted e.other) (orderly.silent e.other)
    intro s inRest
    rw [read]
    exact List.mem_cons_of_mem _ inRest
  refine ⟨?_, ?_, receive_carried am w e parcel rest read orderly.toCarried readable⟩
  · have same := receive_session am w e (w.session e.other).site parcel rest
    refine ⟨?_, ?_, ?_⟩
    · exact same ▸ introduced.hello
    · exact same ▸ introduced.greeted
    · exact same ▸ introduced.silent
  · have same := receive_generated am w e (w.session e.other).site parcel rest
    exact ⟨same ▸ orderly.numbered, same ▸ orderly.decodes⟩

theorem move_orderly (decodes : ∀ m, am.decode (am.encode m) = some m) (next : Cluster Auto Sync Bytes)
    (move : Move am CaughtUp w next) : Orderly am next := by
  cases move with
  | connect i j =>
      exact ⟨connect_introduced w orderly.toIntroduced i j, ⟨orderly.numbered, orderly.decodes⟩,
        connect_carried w orderly.toCarried i j⟩
  | updatePolicy i target right effect p s doc ok => exact serve_orderly am w orderly i _
  | updateDocument i edit d s doc ok => exact serve_orderly am w orderly i _
  | greet e site rest running silent read => exact greet_orderly am w orderly e site rest silent read
  | generate e peerSite bytes alive greeted free some_ allowed =>
      exact generate_orderly am w orderly decodes e peerSite bytes greeted free some_ allowed
  | idle e peerSite alive greeted free none_ => exact serve_orderly am w orderly _ _
  | send e parcel waiting receiver room =>
      refine put_orderly am w orderly e _ rfl (fun _ member => member) rfl ?_ ?_
      · rintro ⟨_, none⟩
        exact absurd (waiting.symm.trans none) (Option.some_ne_none parcel)
      · simp [Session.underWay, waiting, receiver]
  | sendFails e parcel waiting gone =>
      refine put_orderly am w orderly e _ rfl (fun _ member => member) rfl (fun both => ⟨both.1, rfl⟩) ?_
      simp [Session.underWay, gone]
  | write e parcel rest alive front =>
      refine put_orderly am w orderly e _ rfl ?_ rfl ?_ ?_
      · intro s member
        simpa using member
      · rintro ⟨none, _⟩
        exact absurd (front.symm.trans none) (List.cons_ne_nil _ _)
      · simp [Session.underWay, alive, front, PeerMessage.parcel]
  | writerEnds e cause =>
      refine put_orderly am w orderly e _ rfl (fun _ member => member) rfl (fun both => ⟨rfl, both.2⟩) ?_
      simp [Session.underWay]
  | receive e peerSite parcel rest running greeted read =>
      exact receive_orderly am w orderly e peerSite parcel rest greeted read
  | ignore e peerSite site rest running greeted read => exact pop_orderly am w orderly e.other site rest read
  | readFails e running =>
      exact put_orderly am w orderly e _ rfl (fun _ member => member) rfl id (List.prefix_refl _)
  | outboundAborts e ended =>
      refine put_orderly am w orderly e _ rfl (fun _ member => member) rfl (fun both => ⟨both.1, rfl⟩) ?_
      simp only [Session.underWay]
      cases (w.session e).writer <;> simp

end Moves

theorem start_orderly (am : Automerge Auto Sync Message Bytes) (servers : SiteId → Server Auto Sync) :
    Orderly am (Cluster.start servers) := by
  refine ⟨⟨?_, ?_, fun _ _ => ⟨rfl, rfl⟩⟩, ⟨fun _ _ => rfl, ?_⟩, ⟨fun _ _ => List.prefix_refl _, ?_, ?_⟩⟩
  · exact fun _ _ member => absurd member List.not_mem_nil
  · exact fun _ _ known => absurd known (by simp [Cluster.start, Session.opened])
  · exact fun _ _ _ member => absurd member List.not_mem_nil
  · exact fun _ => List.prefix_refl _
  · exact fun _ _ _ _ busy => absurd rfl busy

theorem run_orderly (am : Automerge Auto Sync Message Bytes) (decodes : ∀ m, am.decode (am.encode m) = some m)
    (servers : SiteId → Server Auto Sync) (w : Cluster Auto Sync Bytes) (run : Run am CaughtUp servers w) : Orderly am w := by
  induction run with
  | start => exact start_orderly am servers
  | move w next _ move ih => exact move_orderly am w ih decodes next move

def CarriesOn (w : Cluster Auto Sync Bytes) (e : ConnectionEnd) : Prop :=
  w.handed (w.session e.other).site (w.session e).site ++ (w.session e).underWay <+:
    w.generated (w.session e).site (w.session e.other).site

theorem generate_carries_on_iff (am : Automerge Auto Sync Message Bytes) (w : Cluster Auto Sync Bytes)
    (orderly : Orderly am w) (e : ConnectionEnd) (bytes : Bytes) (alive : (w.session e).writer = true)
    (free : (w.session e).sending = none) :
    CarriesOn (w.generate am e (w.session e.other).site bytes) e ↔ CaughtUp w e := by
  have sites := generate_site am w e bytes (w.session e.other).site
  have generated := generate_generated am w e bytes (w.session e.other).site
  have fresh : w.parcel e (w.session e.other).site bytes ∉ w.generated (w.session e).site (w.session e.other).site := by
    intro member
    have number := List.mem_map_of_mem (f := Parcel.number) member
    rw [orderly.numbered, List.mem_range] at number
    exact Nat.lt_irrefl _ number
  rw [CarriesOn, sites, sites, generate_under_way am w e bytes _ free, alive, if_pos rfl, generated, push_here,
    caught_up_iff am w e orderly.toCarried orderly.toGenuine]
  constructor
  · intro follows
    obtain ⟨rest, whole⟩ := orderly.inOrder e
    cases rest with
    | nil => rwa [List.append_nil] at whole
    | cons missing rest =>
        have first : w.parcel e (w.session e.other).site bytes = missing := by
          rw [← whole, ← List.append_assoc, List.append_assoc _ (missing :: rest)] at follows
          exact (List.cons_prefix_cons.mp ((List.prefix_append_right_inj _).mp follows)).1
        exact absurd (by rw [first, ← whole]; simp) fresh
  · intro whole
    rw [← List.append_assoc]
    exact whole ▸ List.prefix_refl _

theorem sync_in_order (am : Automerge Auto Sync Message Bytes) (decodes : ∀ m, am.decode (am.encode m) = some m)
    (servers : SiteId → Server Auto Sync) (w : Cluster Auto Sync Bytes) (run : Run am CaughtUp servers w) :
    (∀ i j, w.handed j i <+: w.generated i j) ∧
      ∀ e peerSite bytes, (w.session e).peerSite = some peerSite → (w.session e).sending = none →
        (w.session e).writer = true → (CarriesOn (w.generate am e peerSite bytes) e ↔ CaughtUp w e) := by
  have orderly := run_orderly am decodes servers w run
  refine ⟨orderly.handed, ?_⟩
  intro e peerSite bytes greeted free alive
  rw [orderly.greeted e peerSite greeted]
  exact generate_carries_on_iff am w orderly e bytes alive free

-- A sync that sends the whole document whenever it differs from what was sent
-- last, as Automerge sends a message whenever the heads do.
def wholeDocument : Automerge Doc (Option Doc) Doc Doc where
  lists := id
  append := Doc.append
  start := none
  generate doc last := if last = some doc then (doc, last, none) else (doc, some doc, some doc)
  receive doc last m := (⟨doc.policyLog ++ m.policyLog.filter (fun p => p ∉ doc.policyLog),
    doc.docLog ++ m.docLog.filter (fun d => d ∉ doc.docLog)⟩, last)
  encode := id
  decode := some

def freshServer (me : SiteId) : Server Doc (Option Doc) :=
  ⟨(newStateFromBytes me .integrity newSharedDoc).1, newSharedDoc, fun _ => none⟩

instance (w : Cluster Auto Sync Doc) (e : ConnectionEnd) : Decidable (CaughtUp w e) :=
  inferInstanceAs (Decidable (∀ parcel ∈ w.generated (w.session e).site (w.session e.other).site,
    parcel ∈ w.handed (w.session e.other).site (w.session e).site ∨ parcel ∈ (w.session e).underWay))

theorem one_session_in_order : ∃ w : Cluster Doc (Option Doc) Doc, w.handed "B" "A" <+: w.generated "A" "B" ∧
    (w.handed "B" "A").map Parcel.number = [0, 1] := by
  have run : Run wholeDocument CaughtUp freshServer (Cluster.start freshServer) := .start
  have run := run.move _ _ (.connect _ "A" "B")
  have run := run.move _ _ (.greet _ (0, true) "B" [] rfl rfl rfl)
  have run := run.move _ _ (.greet _ (0, false) "A" [] rfl rfl rfl)
  have run := run.move _ _ (.generate _ (0, true) "B" newSharedDoc rfl rfl rfl (by decide +kernel) (by decide +kernel))
  have run := run.move _ _ (.updateDocument _ "A" (.insert 0 'a') _ _ _ (update_document_accepted _ _ _ (by decide +kernel)))
  have run := run.move _ _ (.send _ (0, true) _ rfl rfl (by decide +kernel))
  have run := run.move _ _ (.generate _ (0, true) "B" ⟨[], [⟨⟨"A", 1⟩, [], .insert 0 'a'⟩]⟩ rfl rfl rfl
    (by decide +kernel) (by decide +kernel))
  have run := run.move _ _ (.write _ (0, true) _ _ rfl rfl)
  have run := run.move _ _ (.receive _ (0, false) "A" _ _ rfl rfl rfl)
  have run := run.move _ _ (.send _ (0, true) _ rfl rfl (by decide +kernel))
  have run := run.move _ _ (.write _ (0, true) _ _ rfl rfl)
  have run := run.move _ _ (.receive _ (0, false) "A" _ _ rfl rfl rfl)
  exact ⟨_, (sync_in_order wholeDocument (fun _ => rfl) freshServer _ run).1 "A" "B", by decide +kernel⟩

-- A dials B and B dials A; what A's outbound task of the first session has
-- generated waits there, while the other one's next message goes through.
theorem later_message_first : ¬ ∀ (servers : SiteId → Server Doc (Option Doc)) (w : Cluster Doc (Option Doc) Doc),
    Run wholeDocument (fun _ _ => True) servers w → ∀ i j, w.handed j i <+: w.generated i j := by
  intro holds
  have run : Run wholeDocument (fun _ _ => True) freshServer (Cluster.start freshServer) := .start
  have run := run.move _ _ (.connect _ "A" "B")
  have run := run.move _ _ (.connect _ "B" "A")
  have run := run.move _ _ (.greet _ (0, true) "B" [] rfl rfl rfl)
  have run := run.move _ _ (.greet _ (1, false) "B" [] rfl rfl rfl)
  have run := run.move _ _ (.greet _ (1, true) "A" [] rfl rfl rfl)
  have run := run.move _ _ (.generate _ (0, true) "B" newSharedDoc rfl rfl rfl (by decide +kernel) trivial)
  have run := run.move _ _ (.updateDocument _ "A" (.insert 0 'a') _ _ _ (update_document_accepted _ _ _ (by decide +kernel)))
  have run := run.move _ _ (.generate _ (1, false) "B" ⟨[], [⟨⟨"A", 1⟩, [], .insert 0 'a'⟩]⟩ rfl rfl rfl
    (by decide +kernel) trivial)
  have run := run.move _ _ (.send _ (1, false) _ rfl rfl (by decide +kernel))
  have run := run.move _ _ (.write _ (1, false) _ _ rfl rfl)
  have run := run.move _ _ (.receive _ (1, true) "A" _ _ rfl rfl rfl)
  exact absurd (holds _ _ run "A" "B") (by decide +kernel)

end Accure.Peer
