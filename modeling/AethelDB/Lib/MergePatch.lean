import Mathlib

/-!
# JSON merge patches

A merge patch is a document itself: an object is merged into the target field by field, a field
that is `null` is removed, and anything else replaces what was there. Numbers, strings, Booleans
and arrays are all replaced as a whole, so a document here is `null`, a value of some type `V`
or an object.

Most patches name one field, at the end of a path (`nest`). `get?_merge_nest_value` and
`get?_merge_nest_null` say what such a patch does to that field, `get?_merge_nest_of_apart` that
it leaves every other one alone.
-/

namespace AethelDB.Lib

universe u

/-- A JSON document. -/
inductive Doc (V : Type u) where
  | null
  | value (v : V)
  | obj (fields : String → Option (Doc V))

namespace Doc

variable {V : Type u}

/-- A field of an object. -/
def field (k : String) : Doc V → Option (Doc V)
  | .obj fields => fields k
  | _ => none

/-- The document at the end of a path. -/
def get? (d : Doc V) : List String → Option (Doc V)
  | [] => some d
  | k :: path => (d.field k).bind fun d' => d'.get? path

mutual

/-- Apply a patch. There may be nothing yet where it goes. -/
def merge (target : Option (Doc V)) : Doc V → Doc V
  | .obj fields => .obj fun k => mergeField (target.bind (field k)) (fields k)
  | .value v => .value v
  | .null => .null

/-- What becomes of a field, by what the patch says about it. -/
def mergeField (target : Option (Doc V)) : Option (Doc V) → Option (Doc V)
  | none => target
  | some .null => none
  | some (.value v) => some (.value v)
  | some (.obj fields) => some (merge target (.obj fields))

end

/-- The object with one field. -/
def single (k : String) (d : Doc V) : Doc V := .obj fun k' => if k' = k then some d else none

/-- The document that has `d` at the end of the path and nothing else. -/
def nest (path : List String) (d : Doc V) : Doc V := path.foldr single d

variable {t : Option (Doc V)} {d : Doc V} {k : String} {path path' : List String}

/-- A patch under a field that is not to be removed goes on there. -/
theorem mergeField_some (h : d ≠ .null) : mergeField t (some d) = some (merge t d) := by
  cases d with
  | null => exact absurd rfl h
  | value v => simp only [mergeField, merge]
  | obj fields => simp only [mergeField]

theorem field_merge_single (k' : String) :
    (merge t (single k d)).field k' =
      if k' = k then mergeField (t.bind (field k)) (some d) else t.bind (field k') := by
  simp only [single, merge, field]
  split
  · next h => rw [h]
  · simp only [mergeField]

theorem nest_cons_ne_null : nest (k :: path) d ≠ .null := by simp [nest, single]

theorem nest_ne_null (h : d ≠ .null) : nest path d ≠ .null := by
  cases path with
  | nil => exact h
  | cons k path => exact nest_cons_ne_null

/-- A patch of one field, seen from its first step. -/
theorem get?_merge_nest_cons (h : nest path d ≠ .null) :
    (merge t (nest (k :: path) d)).get? (k :: path') =
      (merge (t.bind (field k)) (nest path d)).get? path' := by
  rw [get?, nest, List.foldr_cons, field_merge_single, if_pos rfl, ← nest, mergeField_some h]
  rfl

/-- The patched field has the new value. -/
theorem get?_merge_nest_value (v : V) : (merge t (nest path (.value v))).get? path = some (.value v) := by
  induction path generalizing t with
  | nil => simp only [nest, List.foldr_nil, merge, get?]
  | cons k path ih => rw [get?_merge_nest_cons (nest_ne_null (by simp)), ih]

/-- A field patched with `null` is gone. -/
theorem get?_merge_nest_null (h : path ≠ []) : (merge t (nest path .null)).get? path = none := by
  induction path generalizing t with
  | nil => exact absurd rfl h
  | cons k path ih =>
    cases path with
    | nil =>
      rw [get?, nest, List.foldr_cons, field_merge_single, if_pos rfl]
      rfl
    | cons k' path =>
      rw [get?_merge_nest_cons nest_cons_ne_null, ih (by simp)]

/-- What is not at the path or below or above it stays. -/
theorem get?_merge_nest_of_apart (pre post post' : List String) {k k' : String} (h : k' ≠ k) :
    (merge t (nest (pre ++ k :: post) d)).get? (pre ++ k' :: post') =
      t.bind fun d => d.get? (pre ++ k' :: post') := by
  induction pre generalizing t with
  | nil =>
    rw [List.nil_append, List.nil_append, get?, nest, List.foldr_cons, field_merge_single,
      if_neg h, Option.bind_assoc]
    rfl
  | cons p pre ih =>
    have hobj : nest (pre ++ k :: post) d ≠ .null := by
      cases pre <;> exact nest_cons_ne_null
    rw [List.cons_append, List.cons_append, get?_merge_nest_cons hobj, ih, Option.bind_assoc]
    rfl

end Doc

end AethelDB.Lib
