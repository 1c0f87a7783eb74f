import Packrat.Value.Visit
/-!
# DataRewrites — a visitor that rewrites the data and rebuilds all else

The visitor `rewrite f` asks `f` for every datum of a value, from left to right, and stops at the first panic.  If there
is none, the value comes back with what `f` gave in the place of each datum, and nothing else of it has changed
(`visit_rewrite_eq`).  Main statement: `visit_rewrite`.
-/
namespace Packrat

namespace Value

mutual

def data : Value → List Value
  | .null => [.null]
  | .bool b => [.bool b]
  | .number n => [.number n]
  | .string s => [.string s]
  | .hole i => [.hole i]
  | .list items => dataAll items
  | .node _ fields => dataAll fields

def dataAll : List Value → List Value
  | [] => []
  | v :: vs => data v ++ dataAll vs

end

mutual

/-- **The value with other data in the places of its own**: its nodes keep their kinds, and nodes and lists all their
parts in order. -/
def mapData (g : Value → Value) : Value → Value
  | .null => g .null
  | .bool b => g (.bool b)
  | .number n => g (.number n)
  | .string s => g (.string s)
  | .hole i => g (.hole i)
  | .list items => .list (mapDataAll g items)
  | .node kind fields => .node kind (mapDataAll g fields)

def mapDataAll (g : Value → Value) : List Value → List Value
  | [] => []
  | v :: vs => mapData g v :: mapDataAll g vs

end

mutual

theorem mapData_id : ∀ v : Value, v.mapData id = v
  | .list items => congrArg Value.list (mapDataAll_id items)
  | .node kind fields => congrArg (Value.node kind) (mapDataAll_id fields)
  | .null | .bool _ | .number _ | .string _ | .hole _ => rfl

theorem mapDataAll_id : ∀ vs : List Value, mapDataAll id vs = vs
  | [] => rfl
  | v :: vs => by rw [mapDataAll, mapData_id v, mapDataAll_id vs]

end

theorem data_of_isData : ∀ {v : Value}, v.isData = true → v.data = [v]
  | .null, _ | .bool _, _ | .number _, _ | .string _, _ | .hole _, _ => rfl

theorem mapData_of_isData (g : Value → Value) : ∀ {v : Value}, v.isData = true → v.mapData g = g v
  | .null, _ | .bool _, _ | .number _, _ | .string _, _ | .hole _, _ => rfl

end Value

namespace Visitor

open Value

theorem visit_of_isData {α : Type} (V : Visitor α) : ∀ {v : Value}, v.isData = true → V.visit v = V.data v
  | .null, _ | .bool _, _ | .number _, _ | .string _, _ | .hole _, _ => rfl

def panic? : Except Panic Value → Option Panic
  | .error p => some p
  | .ok _ => none

def firstPanic? (f : Value → Except Panic Value) (data : List Value) : Option Panic :=
  data.findSome? fun x => panic? (f x)

variable {f : Value → Except Panic Value} {g : Value → Value}

theorem panic?_eq_none_iff {r : Except Panic Value} : panic? r = none ↔ ∃ y, r = .ok y := by
  cases r with
  | error p => exact ⟨fun h => by (cases h), fun ⟨_, h⟩ => by cases h⟩
  | ok y => exact ⟨fun _ => ⟨y, rfl⟩, fun _ => rfl⟩

theorem panic?_eq_some_iff {r : Except Panic Value} {p : Panic} : panic? r = some p ↔ r = .error p := by
  cases r with
  | error q => exact ⟨fun h => congrArg Except.error (Option.some.inj h), fun h => congrArg some (Except.error.inj h)⟩
  | ok y => exact ⟨fun h => by (cases h), fun h => by cases h⟩

theorem firstPanic?_eq_none_iff {data : List Value} : firstPanic? f data = none ↔ ∀ x ∈ data, ∃ y, f x = .ok y := by
  rw [firstPanic?, List.findSome?_eq_none_iff]
  exact forall₂_congr fun _ _ => panic?_eq_none_iff

theorem firstPanic?_append (data more : List Value) :
    firstPanic? f (data ++ more) = (firstPanic? f data).or (firstPanic? f more) := List.findSome?_append

theorem firstPanic?_of_append {before after : List Value} {x : Value} {p : Panic}
    (hbefore : ∀ y ∈ before, ∃ z, f y = .ok z) (hx : f x = .error p) :
    firstPanic? f (before ++ x :: after) = some p := by
  rw [firstPanic?_append, firstPanic?_eq_none_iff.2 hbefore, Option.none_or, firstPanic?, List.findSome?_cons,
    panic?_eq_some_iff.2 hx]

theorem visit_rewrite_of_isData {v : Value} (h : v.isData = true) (hg : ∀ x ∈ v.data, ∀ y, f x = .ok y → g x = y) :
    (rewrite f).visit v = (firstPanic? f v.data).elim (.ok (v.mapData g)) .error := by
  have hv : v ∈ v.data := by
    rw [data_of_isData h]
    exact List.mem_singleton_self v
  rw [visit_of_isData _ h, data_of_isData h, mapData_of_isData g h, firstPanic?, List.findSome?_cons]
  change f v = _
  cases hf : f v with
  | error p => rfl
  | ok y =>
    rw [hg v hv y hf]
    rfl

mutual

/-- **A value is rewritten, or the first panic of its data is reported.**  By recursion over the value: the data of a row
of parts are those of the first part and then those of the others, which is the order in which parts are visited. -/
theorem visit_rewrite_eq : ∀ v : Value, (∀ x ∈ v.data, ∀ y, f x = .ok y → g x = y) →
    (rewrite f).visit v = (firstPanic? f v.data).elim (.ok (v.mapData g)) .error
  | .list items, hg => by
    change walkList ((rewrite f).visitAll items) = _
    rw [walkList, walk_rewrite_eq items hg, Value.data, mapData]
    cases firstPanic? f (dataAll items) <;> rfl
  | .node kind fields, hg => by
    change walkNode kind ((rewrite f).visitAll fields) = _
    rw [walkNode, walk_rewrite_eq fields hg, Value.data, mapData]
    cases firstPanic? f (dataAll fields) <;> rfl
  | .null, hg | .bool _, hg | .number _, hg | .string _, hg | .hole _, hg => visit_rewrite_of_isData rfl hg

theorem walk_rewrite_eq : ∀ vs : List Value, (∀ x ∈ dataAll vs, ∀ y, f x = .ok y → g x = y) →
    walk (((rewrite f).visitAll vs).map (·.2)) = (firstPanic? f (dataAll vs)).elim (.ok (mapDataAll g vs)) .error
  | [], _ => rfl
  | v :: vs, hg => by
    have hv := visit_rewrite_eq v fun x hx => hg x (List.mem_append_left _ hx)
    have hvs := walk_rewrite_eq vs fun x hx => hg x (List.mem_append_right _ hx)
    rw [visitAll, List.map_cons, walk, hv, hvs, dataAll, firstPanic?_append, mapDataAll]
    cases firstPanic? f v.data <;> cases firstPanic? f (dataAll vs) <;> rfl

end

def image (f : Value → Except Panic Value) (x : Value) : Value := (f x).toOption.getD x

theorem image_of_eq_ok {x y : Value} (h : f x = .ok y) : image f x = y := by
  rw [image, h]
  rfl

theorem visit_rewrite_of_ok {v : Value} (h : ∀ x ∈ v.data, f x = .ok (g x)) :
    (rewrite f).visit v = .ok (v.mapData g) := by
  have hvisit := visit_rewrite_eq v fun x hx y hy => Except.ok.inj ((h x hx).symm.trans hy)
  rwa [firstPanic?_eq_none_iff.2 fun x hx => ⟨g x, h x hx⟩] at hvisit

theorem visit_rewrite_of_firstPanic? {v : Value} {p : Panic} (h : firstPanic? f v.data = some p) :
    (rewrite f).visit v = .error p := by
  have hvisit := visit_rewrite_eq v fun x _ y (hy : f x = .ok y) => image_of_eq_ok hy
  rwa [h] at hvisit

/-- **A rewriting visitor changes data and nothing else.**  It gives a value if and only if the function gives something
for every datum, and then the value with what the function gave in the place of each datum; otherwise it reports the
panic of the first datum that the function refuses.  The visitor that copies gives the value back. -/
theorem visit_rewrite (f : Value → Except Panic Value) (v : Value) :
    ((∃ w, (rewrite f).visit v = .ok w) ↔ ∀ x ∈ v.data, ∃ y, f x = .ok y) ∧
    (∀ g : Value → Value, (∀ x ∈ v.data, f x = .ok (g x)) → (rewrite f).visit v = .ok (v.mapData g)) ∧
    (∀ before x after p, v.data = before ++ x :: after → (∀ y ∈ before, ∃ z, f y = .ok z) → f x = .error p →
      (rewrite f).visit v = .error p) ∧
    replace.visit v = .ok v := by
  refine ⟨⟨fun ⟨w, hw⟩ => ?_, fun hok => ?_⟩, fun g => visit_rewrite_of_ok, ?_, ?_⟩
  · rw [← firstPanic?_eq_none_iff]
    cases hp : firstPanic? f v.data with
    | none => rfl
    | some p =>
      rw [visit_rewrite_of_firstPanic? hp] at hw
      cases hw
  · refine ⟨v.mapData (image f), visit_rewrite_of_ok fun x hx => ?_⟩
    obtain ⟨y, hy⟩ := hok x hx
    rw [image_of_eq_ok hy, hy]
  · intro before x after p hdata hbefore hx
    exact visit_rewrite_of_firstPanic? (hdata ▸ firstPanic?_of_append hbefore hx)
  · have hcopy : replace.visit v = .ok (v.mapData id) := visit_rewrite_of_ok fun _ _ => rfl
    rw [hcopy, Value.mapData_id]

end Visitor

end Packrat
