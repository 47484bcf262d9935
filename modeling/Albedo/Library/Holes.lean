import Mathlib.Data.List.DropRight
import Mathlib.Data.List.Nodup
import Mathlib.Tactic.Common

/-!
# Texts with holes

A template is a text in which some places are left for values. Where no character of a value is of
some kind, a filled template is cut at characters of that kind just where the template is.
-/
namespace Albedo.Holes

inductive Piece (α ν : Type*) where
  | char (a : α)
  | hole (name : ν)
  deriving DecidableEq

variable {α ν : Type*} {p : α → Bool} {value : ν → List α} {template : List (Piece α ν)}

def Piece.spell (value : ν → List α) : Piece α ν → List α
  | .char a => [a]
  | .hole name => value name

def Piece.is (p : α → Bool) : Piece α ν → Bool
  | .char a => p a
  | .hole _ => false

def Piece.name? : Piece α ν → Option ν
  | .char _ => none
  | .hole name => some name

def fill (value : ν → List α) (template : List (Piece α ν)) : List α :=
  template.flatMap (Piece.spell value)

def holes (template : List (Piece α ν)) : List ν := template.filterMap Piece.name?

def Clear (value : ν → List α) (p : α → Bool) (template : List (Piece α ν)) : Prop :=
  ∀ name ∈ holes template, ∀ a ∈ value name, p a = false

@[simp] theorem fill_nil : fill value ([] : List (Piece α ν)) = [] := rfl

@[simp] theorem fill_cons (piece : Piece α ν) :
    fill value (piece :: template) = piece.spell value ++ fill value template := rfl

@[simp] theorem fill_append (rest : List (Piece α ν)) :
    fill value (template ++ rest) = fill value template ++ fill value rest :=
  List.flatMap_append

theorem fill_eq_of_no_holes (h : holes template = []) (value value' : ν → List α) :
    fill value template = fill value' template := by
  induction template with
  | nil => rfl
  | cons piece template ih =>
    cases piece with
    | char a => rw [fill_cons, fill_cons, ih h]; rfl
    | hole name => cases h

theorem holes_sublist {rest : List (Piece α ν)} (h : rest.Sublist template) :
    (holes rest).Sublist (holes template) := h.filterMap _

theorem Clear.sublist {rest : List (Piece α ν)} (h : Clear value p template)
    (hrest : rest.Sublist template) : Clear value p rest := fun name hname =>
  h name ((holes_sublist hrest).subset hname)

theorem Clear.tail {piece : Piece α ν} (h : Clear value p (piece :: template)) :
    Clear value p template := h.sublist (List.sublist_cons_self piece template)

theorem Clear.head {name : ν} (h : Clear value p (.hole name :: template)) :
    ∀ a ∈ value name, p a = false := h name List.mem_cons_self

/-! ### Cutting -/

theorem filter_fill (h : Clear value p template) :
    (fill value template).filter (fun a => !p a) =
      fill value (template.filter fun piece => !piece.is p) := by
  induction template with
  | nil => rfl
  | cons piece template ih =>
    rw [fill_cons, List.filter_append, ih h.tail, List.filter_cons]
    cases piece with
    | char a =>
      by_cases ha : p a = true
      · simp [Piece.is, Piece.spell, ha]
      · simp [Piece.is, Piece.spell, ha]
    | hole name =>
      have hkept : (value name).filter (fun a => !p a) = value name :=
        List.filter_eq_self.mpr fun a ha => by rw [h.head a ha]; rfl
      simp [Piece.is, Piece.spell, hkept]

theorem takeWhile_fill (h : Clear value p template) :
    (fill value template).takeWhile (fun a => !p a) =
      fill value (template.takeWhile fun piece => !piece.is p) := by
  induction template with
  | nil => rfl
  | cons piece template ih =>
    cases piece with
    | char a =>
      by_cases ha : p a = true
      · simp [Piece.is, Piece.spell, ha]
      · simp [Piece.is, Piece.spell, ha, ih h.tail]
    | hole name =>
      have hclear : ∀ a ∈ value name, (!p a) = true := fun a ha => by rw [h.head a ha]; rfl
      rw [fill_cons, List.takeWhile_cons_of_pos rfl, fill_cons, ← ih h.tail]
      exact List.takeWhile_append_of_pos hclear

theorem dropWhile_fill (h : Clear value p template) :
    (fill value template).dropWhile (fun a => !p a) =
      fill value (template.dropWhile fun piece => !piece.is p) := by
  induction template with
  | nil => rfl
  | cons piece template ih =>
    cases piece with
    | char a =>
      by_cases ha : p a = true
      · simp [Piece.is, Piece.spell, ha]
      · simp [Piece.is, Piece.spell, ha, ih h.tail]
    | hole name =>
      have hclear : ∀ a ∈ value name, (!p a) = true := fun a ha => by rw [h.head a ha]; rfl
      rw [fill_cons, List.dropWhile_cons_of_pos rfl, ← ih h.tail]
      exact List.dropWhile_append_of_pos hclear

theorem tail?_fill (h : Clear value p template) :
    ((fill value template).dropWhile fun a => !p a).tail? =
      ((template.dropWhile fun piece => !piece.is p).tail?).map (fill value) := by
  rw [dropWhile_fill h]
  cases hdrop : template.dropWhile (fun piece => !piece.is p) with
  | nil => rfl
  | cons piece rest =>
    have hhead := List.head?_dropWhile_not (fun piece : Piece α ν => !piece.is p) template
    rw [hdrop] at hhead
    cases piece with
    | char a => rfl
    | hole name => simp [Piece.is] at hhead

theorem splitOnP_clear {clear rest : List α} (h : ∀ a ∈ clear, p a = false) :
    (clear ++ rest).splitOnP p = (rest.splitOnP p).modifyHead (clear ++ ·) := by
  induction clear with
  | nil =>
    obtain ⟨first, others, hsplit⟩ := List.exists_cons_of_ne_nil (List.splitOnP_ne_nil p rest)
    rw [List.nil_append, hsplit]
    rfl
  | cons a clear ih =>
    obtain ⟨first, others, hsplit⟩ := List.exists_cons_of_ne_nil (List.splitOnP_ne_nil p rest)
    rw [List.cons_append, List.splitOnP_cons_eq_if_modifyHead,
      if_neg (by rw [h a List.mem_cons_self]; exact Bool.false_ne_true),
      ih fun b hb => h b (List.mem_cons_of_mem a hb), hsplit]
    rfl

theorem splitOnP_fill (h : Clear value p template) :
    (fill value template).splitOnP p = (template.splitOnP (Piece.is p)).map (fill value) := by
  induction template with
  | nil => rfl
  | cons piece template ih =>
    obtain ⟨first, others, hsplit⟩ :=
      List.exists_cons_of_ne_nil (List.splitOnP_ne_nil (Piece.is p) template)
    have htail := ih h.tail
    rw [hsplit, List.map_cons] at htail
    rw [List.splitOnP_cons_eq_if_modifyHead, hsplit]
    cases piece with
    | char a =>
      change List.splitOnP p (a :: fill value template) = _
      rw [List.splitOnP_cons_eq_if_modifyHead, htail]
      by_cases ha : p a = true
      · rw [if_pos ha, if_pos (show (Piece.char a : Piece α ν).is p = true from ha)]
        rfl
      · rw [if_neg ha, if_neg (show ¬ (Piece.char a : Piece α ν).is p = true from ha)]
        rfl
    | hole name =>
      rw [fill_cons, if_neg (show ¬ (Piece.hole name : Piece α ν).is p = true from
        Bool.false_ne_true)]
      exact (splitOnP_clear h.head).trans (by rw [htail]; rfl)

theorem rdropWhile_fill (h : Clear value p template)
    (hvalue : ∀ name ∈ holes template, value name ≠ []) :
    (fill value template).rdropWhile p = fill value (template.rdropWhile (Piece.is p)) := by
  induction template using List.reverseRecOn with
  | nil => rfl
  | append_singleton template piece ih =>
    have hfirst := h.sublist (List.sublist_append_left template [piece])
    rw [fill_append]
    cases piece with
    | char a =>
      rw [show fill value [.char a] = [a] from rfl]
      by_cases ha : p a = true
      · rw [List.rdropWhile_concat_pos p _ _ ha,
          List.rdropWhile_concat_pos (Piece.is p) template (.char a) ha]
        exact ih hfirst fun name hname => hvalue name
          ((holes_sublist (List.sublist_append_left template _)).subset hname)
      · rw [List.rdropWhile_concat_neg p _ _ ha,
          List.rdropWhile_concat_neg (Piece.is p) template (.char a) ha, fill_append]
        rfl
    | hole name =>
      have hname : name ∈ holes (template ++ [.hole name]) := by simp [holes, Piece.name?]
      rw [List.rdropWhile_concat_neg _ _ _ Bool.false_ne_true, fill_append]
      change (fill value template ++ (value name ++ [])).rdropWhile p = _ ++ (value name ++ [])
      rw [List.append_nil, ← List.dropLast_append_getLast (hvalue name hname), ← List.append_assoc]
      refine List.rdropWhile_concat_neg p _ _ ?_
      rw [h name hname _ (List.getLast_mem _)]
      exact Bool.false_ne_true

end Albedo.Holes
