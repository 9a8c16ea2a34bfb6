import Accure.Terminal

set_option autoImplicit false

namespace Accure.Terminal

def documentBody (app : AppState) : String :=
  match app.snapshot with
  | some s => s.document
  | none => "(waiting for snapshot…)"

-- by_site of draw_policy: the keys of the map and what stands under them.
structure BySite where
  sites : OrderedSet SiteId
  rights : SiteId → Fin 3 → Bool

def columnOf : Right → Fin 3
  | .admin => 0
  | .read => 1
  | .write => 2

def noteRight (table : BySite) (row : SiteId × Right × Bool) : BySite where
  sites := table.sites.insert row.1
  rights := Function.update table.rights row.1 (Function.update (table.rights row.1) (columnOf row.2.1) row.2.2)

def bySite (snap : Snapshot) : BySite := snap.policy.foldl noteRight ⟨∅, fun _ _ => false⟩

def cell (allowed : Bool) : String := if allowed then "✓" else "·"

structure PolicyRow where
  cells : List String
  me : Bool
deriving DecidableEq, Repr

def policyRows (snap : Snapshot) : List PolicyRow :=
  (bySite snap).sites.elems.map fun site =>
    ⟨[site, cell ((bySite snap).rights site 0), cell ((bySite snap).rights site 1), cell ((bySite snap).rights site 2)],
      decide (site = snap.site)⟩

theorem mem_noted_sites (rows : List (SiteId × Right × Bool)) (table : BySite) (site : SiteId) :
    site ∈ (rows.foldl noteRight table).sites ↔ site ∈ table.sites ∨ ∃ row ∈ rows, row.1 = site := by
  induction rows generalizing table with
  | nil => simp
  | cons row rest ih =>
      rw [List.foldl_cons, ih]
      simp only [noteRight, OrderedSet.mem_insert, List.mem_cons, exists_eq_or_imp]
      constructor
      · rintro ((rfl | old) | later)
        · exact Or.inr (Or.inl rfl)
        · exact Or.inl old
        · exact Or.inr (Or.inr later)
      · rintro (old | rfl | later)
        · exact Or.inl (Or.inr old)
        · exact Or.inl (Or.inl rfl)
        · exact Or.inr later

theorem noted_right (rows : List (SiteId × Right × Bool)) (table : BySite) (site : SiteId) (right : Right) (allowed : Bool)
    (agree : ∀ row ∈ rows, row.1 = site → row.2.1 = right → row.2.2 = allowed)
    (told : table.rights site (columnOf right) = allowed ∨ (site, right, allowed) ∈ rows) :
    (rows.foldl noteRight table).rights site (columnOf right) = allowed := by
  induction rows generalizing table with
  | nil => exact told.resolve_right List.not_mem_nil
  | cons row rest ih =>
      rw [List.foldl_cons]
      refine ih _ (fun other member => agree other (List.mem_cons_of_mem row member)) ?_
      by_cases here : row.1 = site ∧ row.2.1 = right
      · left
        obtain ⟨rfl, rfl⟩ := here
        have said := agree row List.mem_cons_self rfl rfl
        simp [noteRight, said]
      · have apart : columnOf row.2.1 = columnOf right → row.2.1 = right := by
          cases row.2.1 <;> cases right <;> decide
        have kept : (noteRight table row).rights site (columnOf right) = table.rights site (columnOf right) := by
          by_cases same : row.1 = site
          · subst same
            have different : columnOf right ≠ columnOf row.2.1 := fun equal => here ⟨rfl, apart equal.symm⟩
            simp [noteRight, Function.update_of_ne different]
          · simp [noteRight, Function.update_of_ne (Ne.symm same)]
        rw [kept]
        refine told.imp_right fun member => ?_
        rcases List.mem_cons.mp member with equal | later
        · exact absurd ⟨(congrArg Prod.fst equal).symm, (congrArg (fun row => row.2.1) equal).symm⟩ here
        · exact later

section Snapshot

variable (host : Host)

theorem mem_snapshot_policy (site : SiteId) (right : Right) (allowed : Bool) :
    (site, right, allowed) ∈ host.buildSnapshot.policy ↔
      site ∈ knownSites host.state ∧ allowed = eval host.state site right := by
  simp only [Host.buildSnapshot, List.mem_flatMap, OrderedSet.mem_elems, List.mem_map, Prod.mk.injEq]
  constructor
  · rintro ⟨known, member, column, _, rfl, rfl, rfl⟩
    exact ⟨member, rfl⟩
  · rintro ⟨member, rfl⟩
    exact ⟨site, member, right, by cases right <;> decide, rfl, rfl, rfl⟩

theorem shown_sites : (bySite host.buildSnapshot).sites = knownSites host.state := by
  apply OrderedSet.ext
  intro site
  rw [bySite, mem_noted_sites]
  constructor
  · rintro (none_ | ⟨⟨_, right, allowed⟩, member, rfl⟩)
    · exact absurd none_ (OrderedSet.not_mem_empty site)
    · exact ((mem_snapshot_policy host _ right allowed).mp member).1
  · exact fun known => Or.inr ⟨(site, .admin, eval host.state site .admin),
      (mem_snapshot_policy host site .admin _).mpr ⟨known, rfl⟩, rfl⟩

theorem shown_right (site : SiteId) (known : site ∈ knownSites host.state) (right : Right) :
    (bySite host.buildSnapshot).rights site (columnOf right) = eval host.state site right := by
  refine noted_right _ _ site right _ ?_ (Or.inr ((mem_snapshot_policy host site right _).mpr ⟨known, rfl⟩))
  rintro ⟨_, _, allowed⟩ member rfl rfl
  exact ((mem_snapshot_policy host _ _ allowed).mp member).2

theorem policy_table_shows_eval : policyRows host.buildSnapshot = (knownSites host.state).elems.map fun site =>
    ⟨[site, cell (eval host.state site .admin), cell (eval host.state site .read), cell (eval host.state site .write)],
      decide (site = host.state.me)⟩ := by
  rw [policyRows, shown_sites]
  refine List.map_congr_left fun site known => ?_
  rw [← shown_right host site known .admin, ← shown_right host site known .read, ← shown_right host site known .write]
  rfl

end Snapshot

end Accure.Terminal
