import Mathlib.Algebra.Ring.Int.Defs
import Mathlib.Algebra.BigOperators.Group.List.Basic
import Albedo.Reserve.Reserve

/-!
# The supply is conserved

What is left of a resource and what is claimed of it make up its capacity, whatever calls
are made and wherever they fail.
-/
namespace Albedo.Reserve
open Interleave

def Store.reservationsOf (s : Store) (key : String) : List Reservation :=
  s.reservations.filter fun r => r.resourceKey = key

def Store.claimed (s : Store) (key : String) : ℤ :=
  ((s.reservationsOf key).map Reservation.quantity).sum

structure Store.Balanced (s : Store) : Prop where
  supply : ∀ key r, s.resource key = some r → r.remaining + s.claimed key = r.capacity
  bounds : ∀ key r, s.resource key = some r → 0 ≤ r.remaining ∧ r.remaining ≤ r.capacity
  count : ∀ key r, s.resource key = some r → ((s.reservationsOf key).length : ℤ) ≤ r.capacity

/-- The invariant: the supply adds up, and there are claims on defined resources only. -/
structure Store.Conserved (s : Store) : Prop where
  supply : ∀ key r, s.resource key = some r → r.remaining + s.claimed key = r.capacity
  defined : ∀ r ∈ s.reservations, s.resource r.resourceKey ≠ none

def Store.Carries (s s' : Store) : Prop :=
  s.Conserved → s'.Conserved ∧ ∀ key, s.resource key ≠ none → s'.resource key ≠ none

theorem Store.Carries.refl (s : Store) : s.Carries s := fun h => ⟨h, fun _ h => h⟩

theorem Store.Carries.trans {s t u : Store} (hst : s.Carries t) (htu : t.Carries u) :
    s.Carries u := fun h =>
  ⟨(htu (hst h).1).1, fun key hkey => (htu (hst h).1).2 key ((hst h).2 key hkey)⟩

theorem length_le_quantities (rs : List Reservation) :
    (rs.length : ℤ) ≤ (rs.map Reservation.quantity).sum := by
  induction rs with
  | nil => exact le_rfl
  | cons r rs ih =>
      have hpositive := r.positive
      rw [List.length_cons, List.map_cons, List.sum_cons]
      push_cast
      omega

theorem Store.Conserved.balanced {s : Store} (h : s.Conserved) : s.Balanced where
  supply := h.supply
  bounds := fun _ r _ => ⟨r.nonneg, r.within⟩
  count := fun key r hr => by
    have hsupply := h.supply key r hr
    have hcount : ((s.reservationsOf key).length : ℤ) ≤ s.claimed key := length_le_quantities _
    have hnonneg := r.nonneg
    omega

/-! ### Claims come and go -/

theorem perm_cons_filter {rs : List Reservation} {r : Reservation}
    (hids : rs.Pairwise fun r s => r.id < s.id) (hr : r ∈ rs) :
    rs.Perm (r :: rs.filter fun s => s.id ≠ r.id) := by
  induction rs with
  | nil => exact absurd hr List.not_mem_nil
  | cons s rs ih =>
      obtain ⟨hhead, hids⟩ := List.pairwise_cons.mp hids
      rcases List.mem_cons.mp hr with rfl | hr
      · have hkept : ∀ s ∈ rs, decide (s.id ≠ r.id) = true := by
          intro s hs
          have hlt := hhead s hs
          exact decide_eq_true (by omega)
        rw [List.filter_cons_of_neg (by simp), List.filter_eq_self.mpr hkept]
      · have hlt := hhead r hr
        rw [List.filter_cons_of_pos (by simpa using ne_of_lt hlt)]
        exact ((ih hids hr).cons s).trans (List.Perm.swap ..)

theorem Store.claimed_cons {s s' : Store} {r : Reservation} {key : String}
    (h : s'.reservations.Perm (r :: s.reservations)) :
    s'.claimed key = (if r.resourceKey = key then r.quantity else 0) + s.claimed key := by
  have hsum := ((h.filter fun r => decide (r.resourceKey = key)).map Reservation.quantity).sum_eq
  unfold Store.claimed Store.reservationsOf
  rw [hsum, List.filter_cons]
  split_ifs with hkey
  · rw [List.map_cons, List.sum_cons]
  all_goals simp_all

theorem Store.Carries.of_change {s s' : Store} {key : String} {r r' : Resource} {n : ℤ}
    (hr : s.resource key = some r) (hremaining : r'.remaining = r.remaining - n)
    (hcapacity : r'.capacity = r.capacity)
    (hresource : s'.resource = Function.update s.resource key (some r'))
    (hclaimed : ∀ key', s'.claimed key' = s.claimed key' + if key = key' then n else 0)
    (hdefined : ∀ x ∈ s'.reservations, x ∈ s.reservations ∨ x.resourceKey = key) :
    s.Carries s' := by
  intro h
  have hstays : ∀ key', s.resource key' ≠ none → s'.resource key' ≠ none := by
    intro key' hkey'
    rw [hresource, Function.update_apply]
    split_ifs
    · simp
    · exact hkey'
  refine ⟨⟨fun key' r'' hr'' => ?_, fun x hx => ?_⟩, hstays⟩
  · rw [hresource, Function.update_apply] at hr''
    rw [hclaimed]
    split_ifs at hr'' with hkey
    · obtain rfl := Option.some.inj hr''
      subst hkey
      have hsupply := h.supply key' r hr
      rw [if_pos rfl]
      omega
    · have hsupply := h.supply key' r'' hr''
      rw [if_neg (Ne.symm hkey)]
      omega
  · rcases hdefined x hx with hold | rfl
    · exact hstays _ (h.defined x hold)
    · exact hstays _ (by rw [hr]; simp)

theorem Claims.carries {s s' : Store} {req : Request} (h : Claims s req s') : s.Carries s' := by
  obtain ⟨r, r', hr, _, hremaining, hcapacity, hresource⟩ := h.supply
  have hperm : s'.reservations.Perm
      (req.reservation (s.lastId + 1) h.positive :: s.reservations) := by
    rw [h.recorded]
    exact List.perm_append_singleton ..
  refine .of_change hr hremaining hcapacity hresource (fun key => ?_) fun x hx => ?_
  · rw [Store.claimed_cons hperm, Int.add_comm]
    rfl
  · rcases List.mem_cons.mp (hperm.subset hx) with rfl | hx
    · exact Or.inr rfl
    · exact Or.inl hx

theorem Releases.carries {s s' : Store} {claim : Reservation} (h : Releases s claim s') :
    s.Carries s' := by
  obtain ⟨r, r', hr, hremaining, hcapacity, hresource⟩ := h.supply
  have hperm : s.reservations.Perm (claim :: s'.reservations) := by
    rw [h.forgotten]
    exact perm_cons_filter s.ids (Store.reservation_some h.found).1
  have hback : r'.remaining = r.remaining - -claim.quantity := by omega
  refine .of_change hr hback hcapacity hresource (fun key => ?_)
    fun x hx => Or.inl (hperm.symm.subset (List.mem_cons_of_mem _ hx))
  have hclaimed : s.claimed key = _ := Store.claimed_cons hperm
  split_ifs at hclaimed ⊢ <;> omega

theorem insertResource_carries {s s' : Store} {key : String} {capacity : ℤ}
    (hinsert : s.insertResource key capacity = some s') : s.Carries s' := by
  unfold Store.insertResource at hinsert
  split_ifs at hinsert with hcapacity
  cases hr : s.resource key with
  | some r =>
      simp only [hr] at hinsert
      exact Option.some.inj hinsert ▸ .refl s
  | none =>
      simp only [hr] at hinsert
      obtain rfl := Option.some.inj hinsert
      intro h
      -- nothing is claimed of a resource before it is defined
      have hunclaimed : s.reservationsOf key = [] := by
        refine List.filter_eq_nil_iff.mpr fun r hr' hkey => ?_
        rw [decide_eq_true_eq] at hkey
        exact h.defined r hr' (hkey ▸ hr)
      have hresource : ∀ key', (s.setResource key ⟨capacity, capacity, hcapacity, le_rfl⟩).resource
          key' = if key' = key then some ⟨capacity, capacity, hcapacity, le_rfl⟩
            else s.resource key' := fun key' => Function.update_apply ..
      have hclaimed : ∀ key', (s.setResource key ⟨capacity, capacity, hcapacity, le_rfl⟩).claimed
          key' = s.claimed key' := fun _ => rfl
      have hstays : ∀ key', s.resource key' ≠ none →
          (s.setResource key ⟨capacity, capacity, hcapacity, le_rfl⟩).resource key' ≠ none := by
        intro key' hkey'
        rw [hresource]
        split_ifs
        · simp
        · exact hkey'
      refine ⟨⟨fun key' r hr' => ?_, fun r hr' => hstays _ (h.defined r hr')⟩, hstays⟩
      rw [hresource] at hr'
      rw [hclaimed]
      split_ifs at hr' with hkey
      · obtain rfl := Option.some.inj hr'
        subst hkey
        unfold Store.claimed
        rw [hunclaimed]
        exact Int.add_zero _
      · exact h.supply key' r hr'

/-! ### Runs -/

theorem reserveTx_carries {s s' : Store} {req : Request}
    {result : Except ReserveError ReserveOutcome}
    (h : (reserveTx req).run s = some (result, s')) : s.Carries s' := by
  rcases reserveTx_run h with ⟨rfl, _⟩ | ⟨_, ⟨rfl, _⟩ | ⟨hclaims, _⟩⟩
  · exact .refl _
  · exact .refl _
  · exact hclaims.carries

theorem releaseTx_carries {s s' : Store} {id : ℤ} {result : Except ReserveError ReleaseOutcome}
    (h : (releaseTx id).run s = some (result, s')) : s.Carries s' := by
  rcases releaseTx_run h with ⟨rfl, _⟩ | ⟨rfl, _⟩ | ⟨claim, hreleases, _⟩
  · exact .refl _
  · exact .refl _
  · exact hreleases.carries

theorem reserveCovered_guarantees (req : Request) : (reserveCovered req).Guarantees Store.Carries := by
  intro s
  dsimp only
  cases s.remaining req.resource with
  | none => trivial
  | some remaining =>
      dsimp only
      split_ifs
      · trivial
      · exact fun s result s' hrun => ⟨reserveTx_carries hrun, trivial⟩

theorem reserve_guarantees (req : Request) : (reserve req).Guarantees Store.Carries := by
  unfold reserve
  split_ifs
  · trivial
  · cases req.idempotencyKey with
    | none => exact reserveCovered_guarantees req
    | some key =>
        intro s
        dsimp only
        cases s.prior key with
        | none => exact reserveCovered_guarantees req
        | some prior =>
            dsimp only
            cases ensureMatches prior req key with
            | error err => trivial
            | ok u => exact fun _ => trivial

theorem program_guarantees (op : Op) : (program op).Guarantees Store.Carries := by
  cases op with
  | define resource capacity =>
      change (define resource capacity).Guarantees _
      unfold define
      split_ifs
      · trivial
      · intro s g s' hrun
        obtain ⟨s'', hinsert, hmap⟩ := Option.map_eq_some_iff.mp hrun
        obtain ⟨_, rfl⟩ := Prod.mk.inj hmap
        exact ⟨insertResource_carries hinsert, trivial⟩
  | reserve req => exact reserve_guarantees req
  | release id => exact fun s result s' hrun => ⟨releaseTx_carries hrun, trivial⟩

theorem Store.conserved_empty : Store.empty.Conserved :=
  ⟨fun _ _ h => (by cases h), fun _ h => absurd h List.not_mem_nil⟩

theorem storeAt_carries (events : List (Event Op)) {m n : ℕ} (hmn : m ≤ n)
    (hn : n ≤ events.length) : (storeAt program Store.empty events m).Carries
      (storeAt program Store.empty events n) :=
  run_guarantees .refl (fun _ _ _ => .trans) program_guarantees hmn hn

theorem storeAt_conserved (events : List (Event Op)) {n : ℕ} (hn : n ≤ events.length) :
    (storeAt program Store.empty events n).Conserved :=
  (storeAt_carries events (Nat.zero_le n) hn Store.conserved_empty).1

/-- Whatever happens, what is left of every resource and what is claimed of it make up its
capacity. -/
theorem supply_conserved (events : List (Event Op)) :
    ((World.start Store.empty).run program events).store.Balanced := by
  have h := storeAt_conserved events (Nat.le_refl events.length)
  unfold storeAt at h
  rw [viewAt_length] at h
  exact h.balanced

end Albedo.Reserve
