import ScpCore.ExactRead

/-! Narrowing of JSON schemas. The rules compare a child schema with its parent
keyword by keyword; what they are for is that the child admits no value the parent
does not. -/

namespace ScpCore.Schema

/-- A JSON number: an integer, or a finite float by its value. -/
inductive Number
  | int (n : ℤ)
  | float (q : ℚ)
  deriving DecidableEq

/-- A JSON value. An object lists its members in key order, as the map does. -/
inductive Json
  | null
  | bool (b : Bool)
  | number (n : Number)
  | string (s : String)
  | array (items : List Json)
  | object (members : List (String × Json))

abbrev Members := List (String × Json)

/-- The nearest float of 53 bits, ties to even. -/
def roundF64 (n : ℤ) : ℤ :=
  let unit := 2^(n.natAbs.size-53)
  let low := n.natAbs/unit
  let rest := n.natAbs%unit
  let near := if unit < 2*rest ∨ (unit = 2*rest ∧ low%2 = 1) then low+1 else low
  n.sign*(near*unit : ℕ)

namespace Number

def value : Number → ℚ
  | .int n => n
  | .float q => q

def asF64 : Number → ℚ
  | .int n => roundF64 n
  | .float q => q

def asU64 : Number → Option ℕ
  | .int n => if 0 ≤ n then some n.toNat else none
  | .float _ => none

end Number

namespace Json

mutual
/-- Equality of values. -/
def beq : Json → Json → Bool
  | .null, .null => true
  | .bool a, .bool b => a = b
  | .number a, .number b => a = b
  | .string a, .string b => a = b
  | .array as, .array bs => beqItems as bs
  | .object as, .object bs => beqMembers as bs
  | _, _ => false

def beqItems : List Json → List Json → Bool
  | [], [] => true
  | a :: as, b :: bs => a.beq b && beqItems as bs
  | _, _ => false

def beqMembers : List (String × Json) → List (String × Json) → Bool
  | [], [] => true
  | (k, a) :: as, (l, b) :: bs => k = l && a.beq b && beqMembers as bs
  | _, _ => false
end

mutual
theorem beq_iff (a b : Json) : a.beq b = true ↔ a = b := by
  cases a with
  | null => cases b <;> simp [beq]
  | bool a => cases b <;> simp [beq]
  | number a => cases b <;> simp [beq]
  | string a => cases b <;> simp [beq]
  | array as => cases b <;> simp [beq, beqItems_iff as]
  | object as => cases b <;> simp [beq, beqMembers_iff as]

theorem beqItems_iff (as bs : List Json) : beqItems as bs = true ↔ as = bs := by
  cases as with
  | nil => cases bs <;> simp [beqItems]
  | cons a as => cases bs <;> simp [beqItems, beq_iff a, beqItems_iff as]

theorem beqMembers_iff (as bs : List (String × Json)) : beqMembers as bs = true ↔ as = bs := by
  cases as with
  | nil => cases bs <;> simp [beqMembers]
  | cons a as =>
    obtain ⟨k, a⟩ := a
    cases bs with
    | nil => simp [beqMembers]
    | cons b bs => simp [beqMembers, beq_iff a, beqMembers_iff as, Prod.ext_iff]
end

instance : DecidableEq Json := fun a b => decidable_of_iff _ (beq_iff a b)

def asArray : Json → Option (List Json)
  | .array items => some items
  | _ => none

def asObject : Json → Option Members
  | .object members => some members
  | _ => none

def asStr : Json → Option String
  | .string s => some s
  | _ => none

def asF64 : Json → Option ℚ
  | .number n => some n.asF64
  | _ => none

def asU64 : Json → Option ℕ
  | .number n => n.asU64
  | _ => none

def isObject (json : Json) : Bool := json.asObject.isSome

def isArray (json : Json) : Bool := json.asArray.isSome

end Json

/-- Where the structure of a schema changed, and how. -/
inductive SchemaPosition
  | root
  | keyword (keyword reason : String)
  | typeChanged (parent child : Json)
  | lockedKey (key : String)
  deriving DecidableEq

inductive SchemaViolation
  | unknownSchemaKeyword (keyword : String)
  | enumNotSubset (offendingValue : Json)
  | constChanged (parent child : Json)
  | minimumWidened (keyword : String) (parent child : ℚ)
  | maximumWidened (keyword : String) (parent child : ℚ)
  | minLengthWidened (keyword : String) (parent child : ℕ)
  | maxLengthWidened (keyword : String) (parent child : ℕ)
  | patternNotEqual (parent child : Option String)
  | requiredNotSuperset (missingField : String)
  | additionalPropertiesRelaxed (parent child : Option Bool)
  | schemaStructureChanged (position : SchemaPosition)
  deriving DecidableEq

/-- A structural violation at a keyword. -/
def SchemaViolation.at (keyword reason : String) : SchemaViolation :=
  .schemaStructureChanged (.keyword keyword reason)

def jsonSchemaNarrowingWhitelist : List String :=
  ["enum", "const", "minimum", "maximum", "minLength", "maxLength", "pattern", "required",
    "additionalProperties"]

def jsonSchemaStructuralKeywords : List String := ["type", "properties", "items"]

def checkSchemaKeys (child : Members) : Except SchemaViolation Unit :=
  checkEach (fun member => require
    (member.1 ∈ jsonSchemaNarrowingWhitelist || member.1 ∈ jsonSchemaStructuralKeywords)
    (.unknownSchemaKeyword member.1)) child

section Rules
variable (parent child : Members)

/-- A rule that applies where both schemas have the keyword. -/
def whenBoth (keyword : String) (rule : Json → Json → Except SchemaViolation Unit) :
    Except SchemaViolation Unit :=
  (child.lookup keyword).elim (.ok ()) (fun c =>
    (parent.lookup keyword).elim (.ok ()) (fun p => rule p c))

def narrowSchemaEnum : Except SchemaViolation Unit :=
  whenBoth parent child "enum" (fun p c => do
    let parentArr ← okOr p.asArray (.at "enum" "parent not an array")
    let childArr ← okOr c.asArray (.at "enum" "child not an array")
    checkEach (fun value => require (value ∈ parentArr) (.enumNotSubset value)) childArr)

def narrowSchemaConst : Except SchemaViolation Unit :=
  whenBoth parent child "const" (fun p c => require (p = c) (.constChanged p c))

/-- The rules for bounds: both are read, then compared. -/
def narrowSchemaBound {α : Type} (keyword kind : String) (read : Json → Option α)
    (admits : α → α → Bool) (widened : α → α → SchemaViolation) : Except SchemaViolation Unit :=
  whenBoth parent child keyword (fun p c => do
    let parentBound ← okOr (read p) (.at keyword ("parent not " ++ kind))
    let childBound ← okOr (read c) (.at keyword ("child not " ++ kind))
    require (admits parentBound childBound) (widened parentBound childBound))

def narrowSchemaNumericGe (keyword : String) : Except SchemaViolation Unit :=
  narrowSchemaBound parent child keyword "numeric" Json.asF64 (fun p c => p ≤ c)
    (.minimumWidened keyword)

def narrowSchemaNumericLe (keyword : String) : Except SchemaViolation Unit :=
  narrowSchemaBound parent child keyword "numeric" Json.asF64 (fun p c => c ≤ p)
    (.maximumWidened keyword)

def narrowSchemaUintGe (keyword : String) : Except SchemaViolation Unit :=
  narrowSchemaBound parent child keyword "non-negative integer" Json.asU64 (fun p c => p ≤ c)
    (.minLengthWidened keyword)

def narrowSchemaUintLe (keyword : String) : Except SchemaViolation Unit :=
  narrowSchemaBound parent child keyword "non-negative integer" Json.asU64 (fun p c => c ≤ p)
    (.maxLengthWidened keyword)

def extractPatternString (map : Members) : Option String := (map.lookup "pattern").bind Json.asStr

/-- Unlike the rules above, this one refuses a keyword the child drops. -/
def narrowSchemaPattern : Except SchemaViolation Unit :=
  (parent.lookup "pattern").elim (.ok ()) (fun p => do
    let c ← okOr (child.lookup "pattern") (.patternNotEqual (extractPatternString parent) none)
    let parentStr ← okOr p.asStr (.at "pattern" "parent not a string")
    let childStr ← okOr c.asStr (.at "pattern" "child not a string")
    require (parentStr = childStr) (.patternNotEqual (some parentStr) (some childStr)))

def narrowSchemaRequired : Except SchemaViolation Unit :=
  (parent.lookup "required").elim (.ok ()) (fun p => do
    let c ← okOr (child.lookup "required") (.requiredNotSuperset "<all of parent.required>")
    let parentArr ← okOr p.asArray (.at "required" "parent not an array")
    let childArr ← okOr c.asArray (.at "required" "child not an array")
    checkEach (fun entry => do
      let field ← okOr entry.asStr (.at "required" "parent entry not a string")
      require (.string field ∈ childArr) (.requiredNotSuperset field)) parentArr)

/-- The value of `additionalProperties`, which has to be a boolean. -/
def readAdditionalProperties (map : Members) (reason : String) :
    Except SchemaViolation (Option Bool) :=
  match map.lookup "additionalProperties" with
  | none => .ok none
  | some (.bool b) => .ok (some b)
  | some _ => .error (.at "additionalProperties" reason)

def narrowSchemaAdditionalProperties : Except SchemaViolation Unit := do
  let parentBool ← readAdditionalProperties parent "parent must be a bool"
  let childBool ← readAdditionalProperties child "child must be a bool"
  require (parentBool ≠ some false || childBool = some false)
    (.additionalPropertiesRelaxed parentBool childBool)

def narrowSchemaType : Except SchemaViolation Unit :=
  (parent.lookup "type").elim (.ok ()) (fun p => do
    let c ← okOr (child.lookup "type") (.at "type" "child removed parent's type bound")
    require (p = c) (.schemaStructureChanged (.typeChanged p c)))

/-- The rules that do not descend, in their order. -/
def narrowSchemaKeywords : Except SchemaViolation Unit := do
  checkSchemaKeys child
  narrowSchemaEnum parent child
  narrowSchemaConst parent child
  narrowSchemaNumericGe parent child "minimum"
  narrowSchemaNumericLe parent child "maximum"
  narrowSchemaUintGe parent child "minLength"
  narrowSchemaUintLe parent child "maxLength"
  narrowSchemaPattern parent child
  narrowSchemaRequired parent child
  narrowSchemaAdditionalProperties parent child
  narrowSchemaType parent child

/-- The parent lists every key it permits. -/
def locksKeys : Bool := parent.lookup "additionalProperties" = some (.bool false)

end Rules

mutual
def jsonSchemaNarrows (parent : Json) : Json → Except SchemaViolation Unit
  | .object child =>
    match parent with
    | .object parent => do
      narrowSchemaKeywords parent child
      descendProperties parent child
      descendItems parent child
    | _ => .error (.schemaStructureChanged .root)
  | child => require (parent = child) (.schemaStructureChanged .root)
termination_by structural child => child

/-- The descent into `properties`: the search for the child's, and the loop over it. -/
def descendProperties (parent : Members) : Members → Except SchemaViolation Unit
  | [] => require (parent.lookup "properties" = none)
      (.at "properties" "child removed parent's per-property bounds")
  | (key, value) :: rest =>
    if key = "properties" then
      (parent.lookup "properties").elim (.ok ()) (fun props => do
        let parentObj ← okOr props.asObject (.at "properties" "parent not an object")
        narrowProperties parentObj (locksKeys parent) value)
    else descendProperties parent rest
termination_by structural child => child

def narrowProperties (parentObj : Members) (locked : Bool) : Json → Except SchemaViolation Unit
  | .object childObj => narrowEachProperty parentObj locked childObj
  | _ => .error (.at "properties" "child not an object")
termination_by structural child => child

def narrowEachProperty (parentObj : Members) (locked : Bool) :
    Members → Except SchemaViolation Unit
  | [] => .ok ()
  | (key, childSubschema) :: rest => do
    (parentObj.lookup key).elim (require (!locked) (.schemaStructureChanged (.lockedKey key)))
      (fun parentSubschema => jsonSchemaNarrows parentSubschema childSubschema)
    narrowEachProperty parentObj locked rest
termination_by structural child => child

/-- The descent into `items`: the search for the child's, and the rule for its shape. -/
def descendItems (parent : Members) : Members → Except SchemaViolation Unit
  | [] => require (parent.lookup "items" = none)
      (.at "items" "child removed parent's items bound")
  | (key, value) :: rest =>
    if key = "items" then
      (parent.lookup "items").elim (.ok ()) (fun items =>
        if items.isObject && value.isObject then jsonSchemaNarrows items value
        else if items.isArray && value.isArray then narrowPositional (items.asArray.getD []) value
        else require (items = value) (.at "items" "shape mismatch parent vs child"))
    else descendItems parent rest
termination_by structural child => child

def narrowPositional (parentArr : List Json) : Json → Except SchemaViolation Unit
  | .array childArr => do
    require (parentArr.length = childArr.length) (.at "items" "positional array length mismatch")
    narrowEachItem parentArr childArr
  | _ => .ok ()
termination_by structural child => child

def narrowEachItem (parentArr : List Json) : List Json → Except SchemaViolation Unit
  | [] => .ok ()
  | child :: rest => do
    parentArr.head?.elim (.ok ()) (fun parent => jsonSchemaNarrows parent child)
    narrowEachItem parentArr.tail rest
termination_by structural child => child
end

namespace Json

mutual
/-- Equality of values as schemas compare them: numbers by value, objects by member. -/
def Same : Json → Json → Prop
  | .null, .null => True
  | .bool a, .bool b => a = b
  | .number a, .number b => a.value = b.value
  | .string a, .string b => a = b
  | .array as, .array bs => SameItems as bs
  | .object as, .object bs => as.length = bs.length ∧ SameMembers as bs
  | _, _ => False
termination_by structural a => a

def SameItems : List Json → List Json → Prop
  | [], [] => True
  | a :: as, b :: bs => a.Same b ∧ SameItems as bs
  | _, _ => False
termination_by structural as => as

def SameMembers : List (String × Json) → List (String × Json) → Prop
  | [], _ => True
  | (key, a) :: as, bs => (∃ b, bs.lookup key = some b ∧ a.Same b) ∧ SameMembers as bs
termination_by structural as => as
end

/-- The value is of the type so named. -/
def ofType (json : Json) (name : String) : Bool :=
  match json with
  | .null => name = "null"
  | .bool _ => name = "boolean"
  | .number n => name = "number" || (name = "integer" && n.value.den = 1)
  | .string _ => name = "string"
  | .array _ => name = "array"
  | .object _ => name = "object"

/-- The value is of the type, or of one of the types, a `type` keyword names. -/
def HasType (json : Json) : Json → Prop
  | .string name => json.ofType name = true
  | .array names => ∃ name, .string name ∈ names ∧ json.ofType name = true
  | _ => True

end Json

/-- The keywords of a schema that look at one value alone. A keyword with a value
that is not of its kind asks for nothing. -/
structure FlatValid (matchesPattern : String → String → Prop) (schema : Members) (v : Json) :
    Prop where
  enum : ∀ values, schema.lookup "enum" = some (.array values) → ∃ value ∈ values, v.Same value
  const : ∀ value, schema.lookup "const" = some value → v.Same value
  minimum : ∀ bound n, schema.lookup "minimum" = some (.number bound) → v = .number n →
    bound.value ≤ n.value
  maximum : ∀ bound n, schema.lookup "maximum" = some (.number bound) → v = .number n →
    n.value ≤ bound.value
  minLength : ∀ value bound text, schema.lookup "minLength" = some value →
    value.asU64 = some bound → v = .string text → bound ≤ text.length
  maxLength : ∀ value bound text, schema.lookup "maxLength" = some value →
    value.asU64 = some bound → v = .string text → text.length ≤ bound
  pattern : ∀ pattern text, schema.lookup "pattern" = some (.string pattern) → v = .string text →
    matchesPattern pattern text
  required : ∀ names name members, schema.lookup "required" = some (.array names) →
    .string name ∈ names → v = .object members → (members.lookup name).isSome
  additionalProperties : ∀ members key, locksKeys schema = true → v = .object members →
    (members.lookup key).isSome →
    ∃ props, schema.lookup "properties" = some (.object props) ∧ (props.lookup key).isSome
  type : ∀ value, schema.lookup "type" = some value → v.HasType value

/-- The values a schema admits. -/
inductive Valid (matchesPattern : String → String → Prop) : Json → Json → Prop
  | literal {schema v : Json} (shape : schema.isObject = false) (admits : schema ≠ .bool false) :
      Valid matchesPattern schema v
  | object {schema : Members} {v : Json} (flat : FlatValid matchesPattern schema v)
      (properties : ∀ props members key sub x, schema.lookup "properties" = some (.object props) →
        v = .object members → props.lookup key = some sub → members.lookup key = some x →
        Valid matchesPattern sub x)
      (items : ∀ item elems x, schema.lookup "items" = some item → item.isArray = false →
        v = .array elems → x ∈ elems → Valid matchesPattern item x)
      (positional : ∀ (subs elems : List Json) (i : ℕ) (sub x : Json),
        schema.lookup "items" = some (.array subs) → v = .array elems → subs[i]? = some sub →
        elems[i]? = some x → Valid matchesPattern sub x) :
      Valid matchesPattern (.object schema) v

/-- The keywords whose rule lets a child drop them. -/
def droppableKeywords : List String :=
  ["enum", "const", "minimum", "maximum", "minLength", "maxLength"]

/-- The child drops nothing that the rules for one schema do not miss it dropping. -/
structure KeptFlat (parent child : Members) : Prop where
  keywords : ∀ keyword ∈ droppableKeywords, (parent.lookup keyword).isSome →
    (child.lookup keyword).isSome
  minimum : ∀ p c, parent.lookup "minimum" = some (.number p) →
    child.lookup "minimum" = some (.number c) → p.asF64 ≤ c.asF64 → p.value ≤ c.value
  maximum : ∀ p c, parent.lookup "maximum" = some (.number p) →
    child.lookup "maximum" = some (.number c) → c.asF64 ≤ p.asF64 → c.value ≤ p.value
  properties : ∀ parentObj childObj key, parent.lookup "properties" = some (.object parentObj) →
    child.lookup "properties" = some (.object childObj) → (parentObj.lookup key).isSome →
    (childObj.lookup key).isSome ∨ locksKeys child = true
  locked : locksKeys parent = true → parent.lookup "properties" = none →
    ∀ childObj, child.lookup "properties" = some (.object childObj) → childObj = []

/-- The same at every schema that the descent pairs with one of the parent's. -/
inductive Kept : Json → Json → Prop
  | literal {parent child : Json} (shape : (parent.isObject && child.isObject) = false) :
      Kept parent child
  | object {parent child : Members} (flat : KeptFlat parent child)
      (properties : ∀ parentObj childObj key p c,
        parent.lookup "properties" = some (.object parentObj) →
        child.lookup "properties" = some (.object childObj) → parentObj.lookup key = some p →
        childObj.lookup key = some c → Kept p c)
      (items : ∀ p c, parent.lookup "items" = some p → child.lookup "items" = some c → Kept p c)
      (positional : ∀ (parentArr childArr : List Json) (i : ℕ) (p c : Json),
        parent.lookup "items" = some (.array parentArr) →
        child.lookup "items" = some (.array childArr) → parentArr[i]? = some p →
        childArr[i]? = some c → Kept p c) :
      Kept (.object parent) (.object child)

section Sound
variable {parent child : Members}

theorem whenBoth_ok {keyword : String} {rule : Json → Json → Except SchemaViolation Unit}
    (h : whenBoth parent child keyword rule = .ok ()) {p c : Json}
    (hp : parent.lookup keyword = some p) (hc : child.lookup keyword = some c) :
    rule p c = .ok () := by
  simpa [whenBoth, hp, hc] using h

/-- A droppable keyword that is kept has had its rule applied. -/
theorem whenBoth_kept {keyword : String} {rule : Json → Json → Except SchemaViolation Unit}
    (h : whenBoth parent child keyword rule = .ok ()) (kept : KeptFlat parent child)
    (hmem : keyword ∈ droppableKeywords) {p : Json} (hp : parent.lookup keyword = some p) :
    ∃ c, child.lookup keyword = some c ∧ rule p c = .ok () := by
  obtain ⟨c, hc⟩ := Option.isSome_iff_exists.mp (kept.keywords keyword hmem (by rw [hp]; rfl))
  exact ⟨c, hc, whenBoth_ok h hp hc⟩

theorem narrowSchemaBound_kept {α : Type} {keyword kind : String} {read : Json → Option α}
    {admits : α → α → Bool} {widened : α → α → SchemaViolation}
    (h : narrowSchemaBound parent child keyword kind read admits widened = .ok ())
    (kept : KeptFlat parent child) (hmem : keyword ∈ droppableKeywords) {p : Json}
    (hp : parent.lookup keyword = some p) :
    ∃ c a b, child.lookup keyword = some c ∧ read p = some a ∧ read c = some b ∧
      admits a b = true := by
  obtain ⟨c, hc, hrule⟩ := whenBoth_kept h kept hmem hp
  simp only [bind_ok_iff, okOr_ok_iff, require_ok_iff] at hrule
  obtain ⟨a, ha, b, hb, hadmits⟩ := hrule
  exact ⟨c, a, b, hc, ha, hb, hadmits⟩

theorem asF64_eq_some {json : Json} {q : ℚ} (h : json.asF64 = some q) :
    ∃ n, json = .number n ∧ n.asF64 = q := by
  cases json with
  | number n =>
    rw [Json.asF64, Option.some.injEq] at h
    exact ⟨n, rfl, h⟩
  | null | bool _ | string _ | array _ | object _ => cases h

theorem readAdditionalProperties_ok {map : Members} {reason : String} {b : Option Bool}
    (h : readAdditionalProperties map reason = .ok b) : b = some false ↔ locksKeys map = true := by
  unfold readAdditionalProperties at h
  unfold locksKeys
  rw [decide_eq_true_eq]
  split at h
  next hnone =>
    cases h
    simp [hnone]
  next value hbool =>
    cases h
    simp [hbool]
  next => cases h

/-- What the descent into `properties` has checked. -/
theorem descendProperties_ok (h : descendProperties parent child = .ok ()) {props : Json}
    (hp : parent.lookup "properties" = some props) :
    ∃ parentObj childObj, props = .object parentObj ∧
      child.lookup "properties" = some (.object childObj) ∧
      narrowEachProperty parentObj (locksKeys parent) childObj = .ok () := by
  induction child with
  | nil => simp [descendProperties, hp] at h
  | cons member rest ih =>
    obtain ⟨key, value⟩ := member
    rw [descendProperties] at h
    by_cases hkey : key = "properties"
    · subst hkey
      simp only [if_true, hp, Option.elim_some, bind_ok_iff, okOr_ok_iff] at h
      obtain ⟨parentObj, hobj, h⟩ := h
      have hprops : props = .object parentObj := by
        cases props with
        | object members =>
          rw [Json.asObject, Option.some.injEq] at hobj
          rw [hobj]
        | null | bool _ | number _ | string _ | array _ => cases hobj
      cases value with
      | object childObj => exact ⟨parentObj, childObj, hprops, by simp, h⟩
      | null | bool _ | number _ | string _ | array _ => cases h
    · rw [if_neg hkey] at h
      obtain ⟨parentObj, childObj, hprops, hlook, hall⟩ := ih h
      refine ⟨parentObj, childObj, hprops, ?_, hall⟩
      rw [List.lookup_cons, beq_eq_false_iff_ne.mpr (Ne.symm hkey), hlook]

theorem narrowEachProperty_ok {parentObj : Members} {locked : Bool} {childObj : Members}
    (h : narrowEachProperty parentObj locked childObj = .ok ()) {key : String} {c : Json}
    (hc : childObj.lookup key = some c) :
    (∀ p, parentObj.lookup key = some p → jsonSchemaNarrows p c = .ok ()) ∧
      (locked = true → (parentObj.lookup key).isSome) := by
  induction childObj with
  | nil => cases hc
  | cons member rest ih =>
    obtain ⟨name, value⟩ := member
    rw [narrowEachProperty, bind_ok_iff] at h
    obtain ⟨_, hfirst, hrest⟩ := h
    by_cases hkey : key = name
    · subst hkey
      rw [List.lookup_cons, beq_self_eq_true] at hc
      cases hc
      cases hp : parentObj.lookup key with
      | none =>
        rw [hp, Option.elim_none, require_ok_iff] at hfirst
        refine ⟨nofun, ?_⟩
        intro hlocked
        rw [hlocked] at hfirst
        cases hfirst
      | some p =>
        rw [hp, Option.elim_some] at hfirst
        refine ⟨?_, fun _ => rfl⟩
        intro p' hp'
        cases hp'
        exact hfirst
    · rw [List.lookup_cons, beq_eq_false_iff_ne.mpr hkey] at hc
      exact ih hrest hc

theorem not_array_of_object {json : Json} (h : json.isObject = true) : json.isArray = false := by
  cases json with
  | object members => rfl
  | null | bool _ | number _ | string _ | array _ => cases h

/-- What the descent into `items` has checked. -/
theorem descendItems_ok (h : descendItems parent child = .ok ()) {p : Json}
    (hp : parent.lookup "items" = some p) :
    ∃ c, child.lookup "items" = some c ∧
      (p = c ∨ (p.isArray = false ∧ c.isArray = false ∧ jsonSchemaNarrows p c = .ok ()) ∨
        ∃ parentArr childArr, p = .array parentArr ∧ c = .array childArr ∧
          parentArr.length = childArr.length ∧ narrowEachItem parentArr childArr = .ok ()) := by
  induction child with
  | nil => simp [descendItems, hp] at h
  | cons member rest ih =>
    obtain ⟨key, value⟩ := member
    rw [descendItems] at h
    by_cases hkey : key = "items"
    · subst hkey
      refine ⟨value, by simp, ?_⟩
      simp only [if_true, hp, Option.elim_some] at h
      by_cases hobj : (p.isObject && value.isObject) = true
      · rw [if_pos hobj] at h
        rw [Bool.and_eq_true] at hobj
        exact Or.inr (Or.inl ⟨not_array_of_object hobj.1, not_array_of_object hobj.2, h⟩)
      · rw [if_neg hobj] at h
        by_cases harr : (p.isArray && value.isArray) = true
        · rw [if_pos harr] at h
          rw [Bool.and_eq_true] at harr
          cases p with
          | array parentArr =>
            cases value with
            | array childArr =>
              rw [narrowPositional, bind_ok_iff] at h
              simp only [require_ok_iff, exists_unit_iff, decide_eq_true_eq] at h
              exact Or.inr (Or.inr ⟨parentArr, childArr, rfl, rfl, h.1, h.2⟩)
            | null | bool _ | number _ | string _ | object _ => cases harr.2
          | null | bool _ | number _ | string _ | object _ => cases harr.1
        · rw [if_neg harr, require_ok_iff, decide_eq_true_eq] at h
          exact Or.inl h
    · rw [if_neg hkey] at h
      obtain ⟨c, hlook, hall⟩ := ih h
      refine ⟨c, ?_, hall⟩
      rw [List.lookup_cons, beq_eq_false_iff_ne.mpr (Ne.symm hkey), hlook]

theorem narrowEachItem_ok {parentArr childArr : List Json}
    (h : narrowEachItem parentArr childArr = .ok ()) {i : ℕ} {p c : Json}
    (hp : parentArr[i]? = some p) (hc : childArr[i]? = some c) :
    jsonSchemaNarrows p c = .ok () := by
  induction childArr generalizing parentArr i with
  | nil => simp at hc
  | cons first rest ih =>
    rw [narrowEachItem, bind_ok_iff] at h
    obtain ⟨_, hfirst, hrest⟩ := h
    cases parentArr with
    | nil => simp at hp
    | cons head tail =>
      cases i with
      | zero =>
        rw [List.getElem?_cons_zero, Option.some.injEq] at hp hc
        rw [List.head?_cons, Option.elim_some, hp, hc] at hfirst
        exact hfirst
      | succ i =>
        rw [List.getElem?_cons_succ] at hp hc
        exact ih hrest hp hc

theorem flatValid_of_narrows {matchesPattern : String → String → Prop} {v : Json}
    (h : narrowSchemaKeywords parent child = .ok ())
    (hprops : descendProperties parent child = .ok ()) (kept : KeptFlat parent child)
    (valid : FlatValid matchesPattern child v) : FlatValid matchesPattern parent v := by
  simp only [narrowSchemaKeywords, bind_ok_iff, exists_unit_iff] at h
  obtain ⟨_, henum, hconst, hmin, hmax, hminLen, hmaxLen, hpattern, hrequired, hadditional,
    htype⟩ := h
  refine ⟨?_, ?_, ?_, ?_, ?_, ?_, ?_, ?_, ?_, ?_⟩
  · intro values hp
    obtain ⟨c, hc, hrule⟩ := whenBoth_kept henum kept (by decide) hp
    simp only [bind_ok_iff, okOr_ok_iff, checkEach_ok_iff, require_ok_iff,
      decide_eq_true_eq] at hrule
    obtain ⟨parentArr, hparr, childArr, hcarr, hsub⟩ := hrule
    cases c with
    | array items =>
      cases hparr
      cases hcarr
      obtain ⟨value, hvalue, hsame⟩ := valid.enum _ hc
      exact ⟨value, hsub value hvalue, hsame⟩
    | null | bool _ | number _ | string _ | object _ => cases hcarr
  · intro value hp
    obtain ⟨c, hc, hrule⟩ := whenBoth_kept hconst kept (by decide) hp
    rw [require_ok_iff, decide_eq_true_eq] at hrule
    rw [hrule]
    exact valid.const c hc
  · intro bound n hp hv
    obtain ⟨c, a, b, hc, ha, hb, hle⟩ := narrowSchemaBound_kept hmin kept (by decide) hp
    obtain ⟨m, rfl, rfl⟩ := asF64_eq_some hb
    cases ha
    exact (kept.minimum bound m hp hc (by simpa using hle)).trans (valid.minimum m n hc hv)
  · intro bound n hp hv
    obtain ⟨c, a, b, hc, ha, hb, hle⟩ := narrowSchemaBound_kept hmax kept (by decide) hp
    obtain ⟨m, rfl, rfl⟩ := asF64_eq_some hb
    cases ha
    exact (valid.maximum m n hc hv).trans (kept.maximum bound m hp hc (by simpa using hle))
  · intro value bound text hp hbound hv
    obtain ⟨c, a, b, hc, ha, hb, hle⟩ := narrowSchemaBound_kept hminLen kept (by decide) hp
    obtain rfl : bound = a := Option.some.inj (hbound.symm.trans ha)
    exact (of_decide_eq_true hle).trans (valid.minLength c b text hc hb hv)
  · intro value bound text hp hbound hv
    obtain ⟨c, a, b, hc, ha, hb, hle⟩ := narrowSchemaBound_kept hmaxLen kept (by decide) hp
    obtain rfl : bound = a := Option.some.inj (hbound.symm.trans ha)
    exact (valid.maxLength c b text hc hb hv).trans (of_decide_eq_true hle)
  · intro pattern text hp hv
    simp only [narrowSchemaPattern, hp, Option.elim_some, bind_ok_iff, okOr_ok_iff,
      require_ok_iff, decide_eq_true_eq] at hpattern
    obtain ⟨c, hc, _, hpstr, _, hcstr, rfl⟩ := hpattern
    cases c with
    | string text' =>
      cases hpstr
      cases hcstr
      exact valid.pattern _ text hc hv
    | null | bool _ | number _ | array _ | object _ => cases hcstr
  · intro names name members hp hname hv
    simp only [narrowSchemaRequired, hp, Option.elim_some, bind_ok_iff, okOr_ok_iff,
      checkEach_ok_iff, require_ok_iff, decide_eq_true_eq] at hrequired
    obtain ⟨c, hc, parentArr, hparr, childArr, hcarr, hall⟩ := hrequired
    cases hparr
    cases c with
    | array items =>
      cases hcarr
      obtain ⟨field, hfield, hmem⟩ := hall _ hname
      cases hfield
      exact valid.required _ name members hc hmem hv
    | null | bool _ | number _ | string _ | object _ => cases hcarr
  · intro members key hlocked hv hkey
    -- The child is locked too, so the key is one of its properties; the descent has
    -- found each of those among the parent's.
    have hchild : locksKeys child = true := by
      simp only [narrowSchemaAdditionalProperties, bind_ok_iff, require_ok_iff] at hadditional
      obtain ⟨parentBool, hpb, childBool, hcb, hrule⟩ := hadditional
      have hfalse := (readAdditionalProperties_ok hpb).mpr hlocked
      apply (readAdditionalProperties_ok hcb).mp
      simpa [hfalse] using hrule
    obtain ⟨childObj, hc, hsome⟩ := valid.additionalProperties members key hchild hv hkey
    obtain ⟨c, hlook⟩ := Option.isSome_iff_exists.mp hsome
    cases hp : parent.lookup "properties" with
    | none =>
      rw [kept.locked hlocked hp childObj hc] at hlook
      cases hlook
    | some props =>
      obtain ⟨parentObj, childObj', rfl, hc', hall⟩ := descendProperties_ok hprops hp
      rw [hc'] at hc
      cases hc
      exact ⟨parentObj, rfl, (narrowEachProperty_ok hall hlook).2 hlocked⟩
  · intro value hp
    simp only [narrowSchemaType, hp, Option.elim_some, bind_ok_iff, okOr_ok_iff, require_ok_iff,
      decide_eq_true_eq] at htype
    obtain ⟨c, hc, rfl⟩ := htype
    exact valid.type _ hc

/-- A value that a schema admits is admitted by each schema it narrows without
dropping what the rules miss. -/
theorem valid_of_kept {matchesPattern : String → String → Prop} {parent child v : Json}
    (h : jsonSchemaNarrows parent child = .ok ()) (kept : Kept parent child)
    (valid : Valid matchesPattern child v) : Valid matchesPattern parent v := by
  -- By the pairs of schemas that the narrowing descends into.
  induction kept generalizing v with
  | @literal parent child shape =>
    have heq : parent = child := by
      cases child with
      | object members =>
        cases parent with
        | object members' => cases shape
        | null | bool _ | number _ | string _ | array _ => cases h
      | null | bool _ | number _ | string _ | array _ =>
        simpa [jsonSchemaNarrows] using h
    rw [heq]
    exact valid
  | @object parent child flat properties items positional ihProps ihItems ihPos =>
    rw [jsonSchemaNarrows, bind_ok_iff] at h
    simp only [exists_unit_iff, bind_ok_iff] at h
    obtain ⟨hkeywords, hprops, hitems⟩ := h
    cases valid with
    | literal shape _ => cases shape
    | object vflat vprops vitems vpos =>
      refine .object (flatValid_of_narrows hkeywords hprops flat vflat) ?_ ?_ ?_
      · intro props members key sub x hp hv hsub hx
        obtain ⟨parentObj, childObj, hobj, hc, hall⟩ := descendProperties_ok hprops hp
        cases hobj
        have hlisted : (childObj.lookup key).isSome := by
          rcases flat.properties _ _ key hp hc (by rw [hsub]; rfl) with hsome | hlocked
          · exact hsome
          · -- A locked child lists every key of the values it admits.
            obtain ⟨childObj', hc', hsome⟩ :=
              vflat.additionalProperties members key hlocked hv (by rw [hx]; rfl)
            rw [hc] at hc'
            cases hc'
            exact hsome
        obtain ⟨c, hlook⟩ := Option.isSome_iff_exists.mp hlisted
        exact ihProps _ _ key sub c hp hc hsub hlook
          ((narrowEachProperty_ok hall hlook).1 sub hsub)
          (vprops _ members key c x hc hv hlook hx)
      · intro item elems x hp hshape hv hx
        obtain ⟨c, hc, hcase⟩ := descendItems_ok hitems hp
        rcases hcase with rfl | ⟨_, hcshape, hnarrow⟩ | ⟨parentArr, childArr, rfl, _, _⟩
        · exact vitems _ elems x hc hshape hv hx
        · exact ihItems item c hp hc hnarrow (vitems c elems x hc hcshape hv hx)
        · cases hshape
      · intro subs elems i sub x hp hv hsub hx
        obtain ⟨c, hc, hcase⟩ := descendItems_ok hitems hp
        rcases hcase with rfl | ⟨hshape, _⟩ | ⟨parentArr, childArr, harr, rfl, hlen, hall⟩
        · exact vpos _ elems i sub x hc hv hsub hx
        · cases hshape
        · cases harr
          have hi := (List.getElem?_eq_some_iff.mp hsub).1
          have hget := List.getElem?_eq_getElem (l := childArr) (i := i) (by omega)
          exact ihPos _ _ i sub _ hp hc hsub hget (narrowEachItem_ok hall hsub hget)
            (vpos _ elems i _ x hc hv hget hx)

/-- A pair of schemas that the rules accept and that drops nothing the rules miss is
a narrowing: the child admits no value that the parent does not. A pair that the rules
refuse, for whatever reason, is asked for nothing. -/
theorem narrows_sound (matchesPattern : String → String → Prop) (parent child : Json)
    (kept : Kept parent child ∨ jsonSchemaNarrows parent child ≠ .ok ()) :
    jsonSchemaNarrows parent child = .ok () →
      ∀ v, Valid matchesPattern child v → Valid matchesPattern parent v := by
  intro h v valid
  rcases kept with kept | refused
  · exact valid_of_kept h kept valid
  · exact absurd h refused

end Sound

-- A bound, the same bound raised, and no bound.

def atLeast (bound : ℤ) : Json := .object [("minimum", .number (.int bound))]

theorem lookup_atLeast (bound : ℤ) {keyword : String} (h : keyword ≠ "minimum") :
    ([("minimum", Json.number (.int bound))] : Members).lookup keyword = none := by
  rw [List.lookup_cons, beq_eq_false_iff_ne.mpr h, List.lookup_nil]

theorem kept_atLeast : Kept (atLeast 5) (atLeast 7) := by
  have hflat : KeptFlat [("minimum", .number (.int 5))] [("minimum", .number (.int 7))] := by
    refine ⟨by decide, ?_, ?_, ?_, ?_⟩
    · intro p c hp hc _
      cases hp
      cases hc
      norm_num [Number.value]
    · intro p c hp
      cases (lookup_atLeast 5 (by decide)).symm.trans hp
    · intro parentObj childObj key hp
      cases (lookup_atLeast 5 (by decide)).symm.trans hp
    · intro hlocked
      cases hlocked
  refine .object hflat ?_ ?_ ?_
  · intro parentObj childObj key p c hp
    cases (lookup_atLeast 5 (by decide)).symm.trans hp
  · intro p c hp
    cases (lookup_atLeast 5 (by decide)).symm.trans hp
  · intro parentArr childArr i p c hp
    cases (lookup_atLeast 5 (by decide)).symm.trans hp

theorem valid_empty (v : Json) : Valid (fun _ _ => True) (.object []) v :=
  .object ⟨nofun, nofun, nofun, nofun, nofun, nofun, nofun, nofun, nofun, nofun⟩ nofun nofun nofun

theorem valid_atLeast_iff (bound n : ℤ) :
    Valid (fun _ _ => True) (atLeast bound) (.number (.int n)) ↔ bound ≤ n := by
  constructor
  · intro h
    cases h with
    | literal shape _ => cases shape
    | object flat _ _ _ =>
      have hle := flat.minimum (.int bound) (.int n) rfl rfl
      simpa [Number.value] using hle
  · intro h
    refine .object ⟨?_, ?_, ?_, ?_, ?_, ?_, nofun, nofun, nofun, ?_⟩ nofun nofun nofun
    · intro values hp
      cases (lookup_atLeast bound (by decide)).symm.trans hp
    · intro value hp
      cases (lookup_atLeast bound (by decide)).symm.trans hp
    · intro bound' n' hp hv
      cases hp
      cases hv
      simpa [Number.value] using h
    · intro bound' n' hp
      cases (lookup_atLeast bound (by decide)).symm.trans hp
    · intro value bound' text hp _ hv
      cases hv
    · intro value bound' text hp _ hv
      cases hv
    · intro value hp
      cases (lookup_atLeast bound (by decide)).symm.trans hp

theorem narrows_sound_sample :
    jsonSchemaNarrows (atLeast 5) (atLeast 7) = .ok () ∧
      Valid (fun _ _ => True) (atLeast 5) (.number (.int 9)) := by
  have ok : jsonSchemaNarrows (atLeast 5) (atLeast 7) = .ok () := by decide +kernel
  exact ⟨ok, narrows_sound _ _ _ (.inl kept_atLeast) ok _ ((valid_atLeast_iff 7 9).mpr (by decide))⟩

/-- Dropping a minimum is taken for narrowing, and so is lowering one by less than
its rounding to a float. -/
theorem dropped_minimum_narrows :
    jsonSchemaNarrows (atLeast 5) (.object []) = .ok () ∧
    Valid (fun _ _ => True) (.object []) (.number (.int 3)) ∧
    ¬ Valid (fun _ _ => True) (atLeast 5) (.number (.int 3)) ∧
    jsonSchemaNarrows (atLeast (2^53+1)) (atLeast (2^53)) = .ok () ∧
    Valid (fun _ _ => True) (atLeast (2^53)) (.number (.int (2^53))) ∧
    ¬ Valid (fun _ _ => True) (atLeast (2^53+1)) (.number (.int (2^53))) := by
  refine ⟨by decide +kernel, valid_empty _, ?_, by decide +kernel, ?_, ?_⟩
  · rw [valid_atLeast_iff]
    decide
  · rw [valid_atLeast_iff]
  · rw [valid_atLeast_iff]
    decide

end ScpCore.Schema
