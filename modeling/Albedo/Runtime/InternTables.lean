import Albedo.Ir.Columns
import Albedo.Ir.Opcode
import Albedo.Library.TableDelta

/-!
# Tables of interned strings

The server takes a snapshot of its interner: the strings that are tags, attributes and events, each
under the place it stands at, cut to sixteen bits. A page is sent the tables of the first snapshot
and then what changed between two snapshots after each other. It holds the tables of the latest one
as long as no two strings are sent under the last number.
-/
namespace Albedo.Runtime
open Ir TableDelta

structure InternEntry where
  id : UInt16
  value : String

def InternEntry.pair (e : InternEntry) : UInt16 × String := (e.id, e.value)

structure InternTable where
  kind : InternTableKind
  entries : List InternEntry

abbrev InternPatchOp := Op UInt16 String

inductive InternInstruction where
  | initInternTable (table : InternTable)
  | patchInternTable (kind : InternTableKind) (ops : List InternPatchOp)

structure InternTableSnapshot where
  tags : List InternEntry
  attrs : List InternEntry
  events : List InternEntry

abbrev Classify := UInt16 → String → Option InternTableKind

/-! ### The server -/

/-- A number as one of 16 bits, or the largest one. -/
def toU16 (n : ℕ) : UInt16 := if n < 2 ^ 16 then UInt16.ofNat n else 0xFFFF

namespace InternTableSnapshot

def empty : InternTableSnapshot := ⟨[], [], []⟩

def push (interner : StringInterner) (classify : Classify) (snapshot : InternTableSnapshot)
    (idx : ℕ) : InternTableSnapshot :=
  let id := toU16 idx
  let value := interner.resolve (toU32 idx)
  match classify id value with
  | some .tag => { snapshot with tags := snapshot.tags ++ [⟨id, value⟩] }
  | some .attr => { snapshot with attrs := snapshot.attrs ++ [⟨id, value⟩] }
  | some .event => { snapshot with events := snapshot.events ++ [⟨id, value⟩] }
  | none => snapshot

def capture (interner : StringInterner) (classify : Classify) : InternTableSnapshot :=
  (List.range interner.storage.length).foldl (push interner classify) empty

def entriesFor (snapshot : InternTableSnapshot) : InternTableKind → List InternEntry
  | .tag => snapshot.tags
  | .attr => snapshot.attrs
  | .event => snapshot.events

def table (snapshot : InternTableSnapshot) (kind : InternTableKind) : UInt16 → Option String :=
  ofEntries ((snapshot.entriesFor kind).map InternEntry.pair)

end InternTableSnapshot

open InternTableSnapshot

def kinds : List InternTableKind := [.tag, .attr, .event]

def bootstrapInternTables (snapshot : InternTableSnapshot) : List InternInstruction :=
  kinds.filterMap fun kind =>
    let entries := snapshot.entriesFor kind
    if entries.isEmpty then none else some (.initInternTable ⟨kind, entries⟩)

def diffInternTables (prev current : InternTableSnapshot) : List InternInstruction :=
  kinds.filterMap fun kind =>
    let prevEntries := (prev.entriesFor kind).map InternEntry.pair
    let currEntries := (current.entriesFor kind).map InternEntry.pair
    let ops := diff prevEntries currEntries
    if ops.isEmpty then none else some (.patchInternTable kind ops)

/-! ### The page -/

abbrev Mirror := InternTableKind → UInt16 → Option String

def Mirror.empty : Mirror := fun _ _ => none

def InternInstruction.kind : InternInstruction → InternTableKind
  | .initInternTable table => table.kind
  | .patchInternTable kind _ => kind

def InternInstruction.onTable (held : UInt16 → Option String) :
    InternInstruction → UInt16 → Option String
  | .initInternTable table => ofEntries (table.entries.map InternEntry.pair)
  | .patchInternTable _ ops => applyAll held ops

def Mirror.apply (m : Mirror) (i : InternInstruction) : Mirror :=
  Function.update m i.kind (i.onTable (m i.kind))

def Mirror.run (m : Mirror) (instructions : List InternInstruction) : Mirror :=
  instructions.foldl Mirror.apply m

theorem Mirror.run_filterMap {f : InternTableKind → Option InternInstruction}
    (hf : ∀ kind i, f kind = some i → i.kind = kind) (m : Mirror) (l : List InternTableKind)
    (hl : l.Nodup) (kind : InternTableKind) :
    m.run (l.filterMap f) kind =
      if kind ∈ l then ((f kind).map (InternInstruction.onTable (m kind))).getD (m kind)
      else m kind := by
  induction l generalizing m with
  | nil => simp [run]
  | cons first l ih =>
      obtain ⟨hfirst, hl⟩ := List.nodup_cons.mp hl
      cases hi : f first with
      | none =>
          rw [List.filterMap_cons_none hi, ih m hl]
          by_cases hkind : kind = first
          · subst hkind
            rw [if_neg hfirst, if_pos List.mem_cons_self, hi]
            rfl
          · simp [hkind]
      | some i =>
          have hik := hf first i hi
          rw [List.filterMap_cons_some hi, run, List.foldl_cons, ← run, ih _ hl, apply, hik]
          by_cases hkind : kind = first
          · subst hkind
            rw [if_neg hfirst, if_pos List.mem_cons_self, hi, Function.update_self]
            rfl
          · rw [Function.update_of_ne hkind]
            simp [hkind]

theorem mem_kinds (kind : InternTableKind) : kind ∈ kinds := by cases kind <;> decide

theorem Mirror.run_bootstrap (snapshot : InternTableSnapshot) (kind : InternTableKind) :
    Mirror.empty.run (bootstrapInternTables snapshot) kind = snapshot.table kind := by
  rw [bootstrapInternTables, run_filterMap (fun k i hi => ?_) _ _ (by decide),
    if_pos (mem_kinds kind)]
  · by_cases hnil : snapshot.entriesFor kind = []
    · rw [InternTableSnapshot.table, hnil]
      rfl
    · simp only [List.isEmpty_iff, hnil, if_false]
      rfl
  · simp only [List.isEmpty_iff, Option.ite_none_left_eq_some, Option.some.injEq] at hi
    rw [← hi.2]
    rfl

theorem Mirror.run_diff {prev current : InternTableSnapshot} {m : Mirror}
    {kind : InternTableKind} (hm : m kind = prev.table kind)
    (h : Consistent ((current.entriesFor kind).map InternEntry.pair)) :
    m.run (diffInternTables prev current) kind = current.table kind := by
  rw [diffInternTables, run_filterMap (fun k i hi => ?_) _ _ (by decide),
    if_pos (mem_kinds kind)]
  · have happly := applyAll_diff ((prev.entriesFor kind).map InternEntry.pair) h
    by_cases hnil : diff ((prev.entriesFor kind).map InternEntry.pair)
        ((current.entriesFor kind).map InternEntry.pair) = []
    · rw [hnil, applyAll_nil] at happly
      simp only [hnil, List.isEmpty_nil, if_true, Option.map_none, Option.getD_none]
      exact hm.trans happly
    · simp only [List.isEmpty_iff, hnil, if_false, Option.map_some, Option.getD_some,
        InternInstruction.onTable]
      rw [hm]
      exact happly
  · simp only [List.isEmpty_iff, Option.ite_none_left_eq_some, Option.some.injEq] at hi
    rw [← hi.2]
    rfl

/-! ### What a snapshot holds -/

section Capture

variable {interner : StringInterner} {classify : Classify} {kind : InternTableKind}
  {e : InternEntry}

theorem entriesFor_push (snapshot : InternTableSnapshot) (idx : ℕ) :
    (push interner classify snapshot idx).entriesFor kind = snapshot.entriesFor kind ++
      if classify (toU16 idx) (interner.resolve (toU32 idx)) = some kind then
        [⟨toU16 idx, interner.resolve (toU32 idx)⟩] else [] := by
  simp only [push]
  cases classify (toU16 idx) (interner.resolve (toU32 idx)) with
  | none => simp
  | some other => cases other <;> cases kind <;> simp [entriesFor]

theorem mem_entriesFor_foldl (places : List ℕ) (snapshot : InternTableSnapshot) :
    e ∈ (places.foldl (push interner classify) snapshot).entriesFor kind ↔
      e ∈ snapshot.entriesFor kind ∨ ∃ idx ∈ places,
        classify (toU16 idx) (interner.resolve (toU32 idx)) = some kind ∧
          e = ⟨toU16 idx, interner.resolve (toU32 idx)⟩ := by
  induction places generalizing snapshot with
  | nil => simp
  | cons idx places ih =>
      rw [List.foldl_cons, ih, entriesFor_push, List.mem_append, List.exists_mem_cons_iff,
        or_assoc]
      refine or_congr_right (or_congr_left ?_)
      split_ifs with hclass
      · rw [List.mem_singleton, and_iff_right hclass]
      · simp [hclass]

theorem mem_entriesFor :
    e ∈ (capture interner classify).entriesFor kind ↔
      ∃ idx < interner.storage.length,
        classify (toU16 idx) (interner.resolve (toU32 idx)) = some kind ∧
          e = ⟨toU16 idx, interner.resolve (toU32 idx)⟩ := by
  rw [capture, mem_entriesFor_foldl]
  have hempty : e ∉ InternTableSnapshot.empty.entriesFor kind := by
    cases kind <;> simp [empty, entriesFor]
  simp [hempty]

end Capture

/-! ### Sessions -/

theorem toU16_eq {n : ℕ} (h : 65535 ≤ n) : toU16 n = 0xFFFF := by
  unfold toU16
  split_ifs with hlt
  · obtain rfl : n = 65535 := by omega
    rfl
  · rfl

theorem toU16_inj {m n : ℕ} (h : toU16 m = toU16 n) : m = n ∨ 65535 ≤ m ∧ 65535 ≤ n := by
  have hnat := congrArg UInt16.toNat h
  unfold toU16 at hnat
  split_ifs at hnat <;> simp at hnat <;> omega

theorem toU32_toNat_le (n : ℕ) : (toU32 n).toNat = min n (2 ^ 32 - 1) := by
  unfold toU32
  split_ifs with h
  · rw [UInt32.toNat_ofNat', Nat.mod_eq_of_lt h]
    omega
  · rw [show (0xFFFFFFFF : UInt32).toNat = 2 ^ 32 - 1 from rfl]
    omega

theorem interned_storage (s : StringInterner) (hs : s.storage.Nodup)
    (hindex : ∀ value, value ∈ s.storage → s.index value ≠ none) (values : List String) :
    (s.internAll values).2.storage.Nodup := by
  induction values generalizing s with
  | nil => exact hs
  | cons value values ih =>
      rw [StringInterner.internAll]
      refine ih _ ?_ ?_
      · cases hvalue : s.index value with
        | some existing => simpa only [StringInterner.intern, hvalue] using hs
        | none =>
            simp only [StringInterner.intern, hvalue, ← List.concat_eq_append]
            exact hs.concat fun hmem => hindex value hmem hvalue
      · intro other hother
        cases hvalue : s.index value with
        | some existing =>
            simp only [StringInterner.intern, hvalue] at hother ⊢
            exact hindex other hother
        | none =>
            simp only [StringInterner.intern, hvalue, List.mem_append, List.mem_singleton]
              at hother ⊢
            by_cases heq : other = value
            · simp [heq]
            · rw [Function.update_of_ne heq]
              exact hindex other (hother.resolve_right heq)

theorem interned_length (s : StringInterner) {values : List String} (hvalues : values.Nodup)
    (hnew : ∀ value ∈ values, s.index value = none) :
    (s.internAll values).2.storage.length = s.storage.length + values.length := by
  induction values generalizing s with
  | nil => rfl
  | cons value values ih =>
      obtain ⟨hvalue, hvalues⟩ := List.nodup_cons.mp hvalues
      obtain ⟨hfirst, hnew⟩ := List.forall_mem_cons.mp hnew
      rw [StringInterner.internAll]
      refine (ih _ hvalues fun other hother => ?_).trans ?_
      · simp only [StringInterner.intern, hfirst]
        rw [Function.update_of_ne (ne_of_mem_of_not_mem hother hvalue)]
        exact hnew other hother
      · simp only [StringInterner.intern, hfirst, List.length_append, List.length_cons,
          List.length_nil]
        omega

/-- What a snapshot is taken of: the strings that were interned, and who says what they are. -/
structure Capture where
  values : List String
  classify : Classify

namespace Capture

variable (c : Capture)

def interner : StringInterner := (StringInterner.empty.internAll c.values).2

def snapshot : InternTableSnapshot := capture c.interner c.classify

theorem nodup : c.interner.storage.Nodup :=
  interned_storage _ List.nodup_nil (fun _ h => absurd h List.not_mem_nil) _

/-- Past the last number of its own at most one string is in a table, and its place is one the
interner has a handle for. -/
def Fits : Prop :=
  ∀ i j v w, 65535 ≤ i → 65535 ≤ j → c.interner.storage[i]? = some v →
    c.interner.storage[j]? = some w → (c.classify 0xFFFF v).isSome → (c.classify 0xFFFF w).isSome →
      i = j ∧ i < 2 ^ 32

/-- A page holds what the snapshot has, and each string is found under the number of its place. -/
structure Held (m : Mirror) : Prop where
  table : ∀ kind, m kind = c.snapshot.table kind
  apart : ∀ kind kind', ∀ e ∈ c.snapshot.entriesFor kind, ∀ e' ∈ c.snapshot.entriesFor kind',
    e.value ≠ e'.value → e.id ≠ e'.id
  resolved : ∀ idx value kind, c.interner.storage[idx]? = some value →
    c.classify (toU16 idx) value = some kind → m kind (toU16 idx) = some value

variable {c} {kind kind' : InternTableKind} {e e' : InternEntry} {m : Mirror}

theorem place_of_mem (h : e ∈ c.snapshot.entriesFor kind) :
    ∃ i < 2 ^ 32, c.interner.storage[i]? = some e.value ∧ e.id = toU16 i ∧
      c.classify (toU16 i) e.value = some kind := by
  obtain ⟨idx, hidx, hclass, rfl⟩ := mem_entriesFor.mp h
  have hplace := toU32_toNat_le idx
  have hlt : (toU32 idx).toNat < c.interner.storage.length := by omega
  have hid : toU16 (toU32 idx).toNat = toU16 idx := by
    by_cases hsmall : idx < 2 ^ 32
    · rw [toU32_toNat hsmall]
    · rw [toU16_eq (by omega), toU16_eq (by omega)]
  refine ⟨(toU32 idx).toNat, by omega, ?_, hid.symm, hid ▸ hclass⟩
  rw [List.getElem?_eq_getElem hlt, StringInterner.resolve, List.getD_eq_getElem?_getD,
    List.getElem?_eq_getElem hlt, Option.getD_some]

theorem mem_of_place {i : ℕ} {v : String} (hi : i < 2 ^ 32) (hv : c.interner.storage[i]? = some v)
    (h : c.classify (toU16 i) v = some kind) : ⟨toU16 i, v⟩ ∈ c.snapshot.entriesFor kind := by
  have hlt := (List.getElem?_eq_some_iff.mp hv).choose
  have hresolve : c.interner.resolve (toU32 i) = v := by
    rw [StringInterner.resolve, toU32_toNat hi, List.getD_eq_getElem?_getD, hv, Option.getD_some]
  exact mem_entriesFor.mpr ⟨i, hlt, by rw [hresolve, h], by rw [hresolve]⟩

theorem Fits.value_eq (h : c.Fits) (he : e ∈ c.snapshot.entriesFor kind)
    (he' : e' ∈ c.snapshot.entriesFor kind') (hid : e.id = e'.id) : e.value = e'.value := by
  obtain ⟨i, -, hi, hie, hclass⟩ := place_of_mem he
  obtain ⟨j, -, hj, hje, hclass'⟩ := place_of_mem he'
  have hij : i = j := by
    rcases toU16_inj (hie.symm.trans (hid.trans hje)) with heq | ⟨hlast, hlast'⟩
    · exact heq
    · rw [toU16_eq hlast] at hclass
      rw [toU16_eq hlast'] at hclass'
      exact (h i j _ _ hlast hlast' hi hj (by simp [hclass]) (by simp [hclass'])).1
  subst hij
  exact Option.some.inj (hi.symm.trans hj)

theorem Fits.consistent (h : c.Fits) (kind : InternTableKind) :
    Consistent ((c.snapshot.entriesFor kind).map InternEntry.pair) := by
  intro p hp p' hp' hkey
  obtain ⟨e, he, rfl⟩ := List.mem_map.mp hp
  obtain ⟨e', he', rfl⟩ := List.mem_map.mp hp'
  exact h.value_eq he he' hkey

theorem Fits.held (h : c.Fits) (hm : ∀ kind, m kind = c.snapshot.table kind) : c.Held m where
  table := hm
  apart kind kind' e he e' he' hvalue hid := hvalue (h.value_eq he he' hid)
  resolved idx value kind hv hclass := by
    have hidx : idx < 2 ^ 32 := by
      by_contra hge
      have hlast : 65535 ≤ idx := by omega
      rw [toU16_eq hlast] at hclass
      have hsome : (c.classify 0xFFFF value).isSome := by simp [hclass]
      exact hge (h idx idx value value hlast hlast hv hv hsome hsome).2
    rw [hm]
    exact (h.consistent kind).ofEntries_eq
      (List.mem_map_of_mem (f := InternEntry.pair) (mem_of_place hidx hv hclass))

theorem Held.fits (h : c.Held m) : c.Fits := by
  -- what is found under the last number is an entry of the snapshot
  have hentry : ∀ i v, 65535 ≤ i → c.interner.storage[i]? = some v →
      (c.classify 0xFFFF v).isSome → ∃ kind, ⟨0xFFFF, v⟩ ∈ c.snapshot.entriesFor kind := by
    intro i v hi hv hsome
    obtain ⟨kind, hclass⟩ := Option.isSome_iff_exists.mp hsome
    have hfound := h.resolved i v kind hv (by rw [toU16_eq hi, hclass])
    rw [h.table, toU16_eq hi] at hfound
    obtain ⟨e, he, hpair⟩ := List.mem_map.mp (mem_of_ofEntries hfound)
    obtain ⟨hid, hvalue⟩ := Prod.mk.inj hpair
    obtain rfl : e = ⟨0xFFFF, v⟩ := by
      cases e
      simp_all
    exact ⟨kind, he⟩
  intro i j v w hi hj hv hw hsome hsome'
  obtain ⟨kind, he⟩ := hentry i v hi hv hsome
  obtain ⟨kind', he'⟩ := hentry j w hj hw hsome'
  have hvw : v = w := by
    by_contra hne
    exact h.apart kind kind' _ he _ he' hne rfl
  subst hvw
  have hplace : ∀ k, c.interner.storage[k]? = some v → k = i := by
    intro k hk
    obtain ⟨hlt, hget⟩ := List.getElem?_eq_some_iff.mp hk
    obtain ⟨hlt', hget'⟩ := List.getElem?_eq_some_iff.mp hv
    exact (List.Nodup.getElem_inj_iff c.nodup).mp (hget.trans hget'.symm)
  obtain ⟨place, hsmall, hstands, -⟩ := place_of_mem he
  exact ⟨(hplace j hw).symm, hplace place hstands ▸ hsmall⟩

theorem Held.not_crowded (h : c.Held m) (hlen : 65536 < c.interner.storage.length)
    (hall : ∀ value, (c.classify 0xFFFF value).isSome) : False := by
  obtain ⟨v, hv⟩ : ∃ v, c.interner.storage[65535]? = some v :=
    ⟨_, List.getElem?_eq_getElem (by omega)⟩
  obtain ⟨w, hw⟩ : ∃ w, c.interner.storage[65536]? = some w :=
    ⟨_, List.getElem?_eq_getElem (by omega)⟩
  have hplaces := h.fits 65535 65536 v w (by omega) (by omega) hv hw (hall v) (hall w)
  omega

end Capture

def follow (m : Mirror) (prev : InternTableSnapshot) : List Capture → Mirror
  | [] => m
  | c :: rest => follow (m.run (diffInternTables prev c.snapshot)) c.snapshot rest

/-- A page that is sent the first snapshot whole and the later ones as differences. -/
def session (first : Capture) (rest : List Capture) : Mirror :=
  follow (Mirror.empty.run (bootstrapInternTables first.snapshot)) first.snapshot rest

theorem follow_held {m : Mirror} {first : Capture} {rest : List Capture}
    (hrest : ∀ c ∈ rest, c.Fits) (hm : ∀ kind, m kind = first.snapshot.table kind)
    (kind : InternTableKind) :
    follow m first.snapshot rest kind = (rest.getLastD first).snapshot.table kind := by
  induction rest generalizing m first with
  | nil => exact hm kind
  | cons c rest ih =>
      obtain ⟨hc, hrest⟩ := List.forall_mem_cons.mp hrest
      rw [follow, List.getLastD_cons]
      exact ih hrest fun k => Mirror.run_diff (hm k) (hc.consistent k)

/-- At every point of a session the page holds the latest snapshot, and each string under a number
of its own, as long as no snapshot needs the last number for two strings; and only then. -/
theorem session_held_iff (first : Capture) (rest : List Capture) :
    (∀ sent, sent <+: rest → (sent.getLastD first).Held (session first sent)) ↔
      ∀ c ∈ first :: rest, c.Fits := by
  constructor
  · intro h c hc
    rcases List.mem_cons.mp hc with rfl | hc
    · exact (h [] rest.nil_prefix).fits
    · obtain ⟨before, after, rfl⟩ := List.append_of_mem hc
      have hheld := h (before ++ [c]) ⟨after, by simp⟩
      rw [List.getLastD_concat] at hheld
      exact hheld.fits
  · intro h sent hsent
    obtain ⟨hfirst, hrest⟩ := List.forall_mem_cons.mp h
    have hsentFits : ∀ c ∈ sent, c.Fits := fun c hc => hrest c (hsent.subset hc)
    have hlast : (sent.getLastD first).Fits := by
      rcases List.eq_nil_or_concat sent with rfl | ⟨before, c, rfl⟩
      · exact hfirst
      · rw [List.concat_eq_append] at hsentFits ⊢
        rw [List.getLastD_concat]
        exact hsentFits c (List.mem_append_right _ List.mem_cons_self)
    exact hlast.held (follow_held hsentFits (Mirror.run_bootstrap first.snapshot))

def crowd (count : ℕ) : Capture where
  values := (List.range count).map fun n => String.ofList (List.replicate n 'a')
  classify _ _ := some .tag

theorem crowd_length (count : ℕ) : (crowd count).interner.storage.length = count := by
  have hinj : Function.Injective fun n => String.ofList (List.replicate n 'a') := by
    intro a b hab
    have hlen := congrArg (fun s => s.toList.length) hab
    simpa using hlen
  have hlength := interned_length .empty (List.nodup_range (n := count).map hinj) fun _ _ => rfl
  rw [List.length_map, List.length_range] at hlength
  exact hlength.trans (Nat.zero_add count)

/-- One string more than there are numbers. -/
theorem crowded_not_held : ¬ (crowd 65537).Held (session (crowd 65537) []) := by
  intro h
  exact h.not_crowded (by rw [crowd_length]; omega) fun _ => rfl

end Albedo.Runtime
