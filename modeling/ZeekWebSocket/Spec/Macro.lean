import ZeekWebSocket.Spec.Derive

/-! The derive macro as a pass: from the syntax of a declaration to the two `impl` blocks it
expands to, and what these blocks mean, in the part of Rust that they use. -/

namespace ZWS.Macro

open Base

/-- Names. One that is written `r#x` is `x`. -/
abbrev Ident := String

/-- A segment of a path as it is written, with the text of its generic arguments. -/
structure PathSegment where
  ident : String
  arguments : String

/-- `syn::Type`. -/
inductive Syn where
  | path (segments : List PathSegment)
  | other (tokens : String)

structure Field where
  ident : Option Ident
  ty : Syn

/-- `syn::Fields`. -/
inductive FieldList where
  | named (fields : List Field)
  | unnamed (fields : List Field)
  | unit

/-- `syn::Data`. -/
inductive Body where
  | struct (fields : FieldList)
  | enum
  | union

/-- A lifetime, type or constant that a struct takes, with the text of its default. Lifetimes have
none. -/
structure GenericParam where
  ident : Ident
  default : Option String

structure DeriveInput where
  ident : Ident
  generics : List GenericParam
  data : Body

/-- Expressions of the generated code. -/
inductive Expr where
  | var (x : Ident)
  /-- `x.f` -/
  | field (x f : Ident)
  | none
  | some (e : Expr)
  | valueNone
  /-- `Value::from(e)` -/
  | valueFrom (e : Expr)
  /-- `x.next().unwrap_or(Value::None)` -/
  | next (x : Ident)
  /-- `e.try_into()?` -/
  | tryInto (e : Expr)
  /-- `match e { Some(x) => present, None => absent }` -/
  | matchOption (e : Expr) (x : Ident) (present absent : Expr)
  /-- `match e { Value::None => absent, x => present }` -/
  | matchValue (e : Expr) (absent : Expr) (x : Ident) (present : Expr)

/-- `impl From<name> for Value`: the elements of the vector made of `arg`. -/
structure ValueFrom where
  name : Ident
  arg : Ident
  elements : List Expr

/-- `impl TryFrom<Value> for name`: the iterator over the elements of `arg`, one `let` after the
other, and the variables that the struct is built from. -/
structure FromValue where
  name : Ident
  arg : Ident
  iter : Ident
  inits : List (Ident × Expr)
  names : List Ident

structure Impls where
  valueFrom : ValueFrom
  fromValue : FromValue

/-- A type is `Option` if its last segment says so. -/
def looksLikeOption : Syn → Outcome String Bool
  | .path segments => .ok (segments.getLast?.any fun s => s.ident = "Option")
  | .other _ => .err "unsupported type"

def valueFromVar (name field : Ident) : Ident :=
  "__zeek_websocket_derive__impl_value_from_" ++ name ++ "__" ++ field

def iterVar (name : Ident) : Ident := "__zeek_websocket_derive__impl_from_value_" ++ name

def fromValueVar (name field : Ident) : Ident := iterVar name ++ "__" ++ field

def valueFromField (name : Ident) (f : Field) : Outcome String Expr :=
  match f.ident with
  | .none => .err "unsupported field name"
  | .some field => do
    if ← looksLikeOption f.ty then
      let x := valueFromVar name field
      pure (.matchOption (.field "value" field) x (.valueFrom (.var x)) .valueNone)
    else pure (.valueFrom (.field "value" field))

def implValueFrom (name : Ident) (fields : List Field) : Outcome String ValueFrom := do
  let elements ← fields.mapM (valueFromField name)
  pure ⟨name, "value", elements⟩

def fromValueField (name : Ident) (f : Field) : Outcome String (Ident × Expr) :=
  match f.ident with
  | .none => .panic -- the closure unwraps, after all names were checked
  | .some field => do
    let init := Expr.next (iterVar name)
    let x := fromValueVar name field
    pure (field, if ← looksLikeOption f.ty then .matchValue init .none x (.some (.tryInto (.var x)))
      else .tryInto init)

def implFromValue (name : Ident) (fields : List Field) : Outcome String FromValue :=
  if fields.any fun f => f.ident.isNone then .err "unnamed fields are unsupported"
  else do
    let inits ← fields.mapM (fromValueField name)
    pure ⟨name, "value", iterVar name, inits, inits.map Prod.fst⟩

/-- What generics a struct takes is not looked at. -/
def deriveImpl (ast : DeriveInput) : Outcome String Impls :=
  match ast.data with
  | .enum => .err "only structs can derive ZeekType"
  | .union => .err "only structs can derive ZeekType"
  | .struct (.named fields) => do
    let valueFrom ← implValueFrom ast.ident fields
    let fromValue ← implFromValue ast.ident fields
    pure ⟨valueFrom, fromValue⟩
  | .struct _ => .err "only structs with named fields can derive ZeekType"

/-- What the type of a field means: a type with conversions, or an `Option` of one. -/
inductive FieldTy where
  | plain (ty : Ty)
  | option (ty : Ty)

def FieldTy.Carrier : FieldTy → Type
  | .plain ty => ty.Carrier
  | .option ty => Option ty.Carrier

def FieldTy.isOption : FieldTy → Bool
  | .plain _ => false
  | .option _ => true

/-- The value of a field. -/
structure Slot where
  ty : FieldTy
  value : ty.Carrier

/-- The names of a struct with the values of its fields. -/
abbrev Record := List (Ident × Slot)

/-- The fields of a struct with what their types mean. -/
abbrev Schema := List (Ident × FieldTy)

/-- Types of the variables in the generated code. -/
inductive Kind where
  | value
  | iter
  | record
  | slot (ty : FieldTy)

abbrev Scope := List (Ident × Kind)

/-- A name alone is a pattern that binds a variable, unless the prelude has a variant of it. -/
def Binds (x : Ident) : Prop := x ∉ ["Some", "None", "Ok", "Err"]

instance (x : Ident) : Decidable (Binds x) := inferInstanceAs (Decidable (x ∉ _))

/-- In an `impl` that uses these items of the prelude the name alone stands for the struct. -/
def StandsFor (generics : List GenericParam) (used : List Ident) (name : Ident) : Prop :=
  name ∉ used ∧ ∀ param ∈ generics, param.default.isSome

section
variable (generics : List GenericParam) (schema : Schema)

/-- The type rules of the generated code for a struct. Only types with conversions have them: there
are none for `Option`. -/
inductive HasKind : Scope → Expr → Kind → Prop
  | var {Γ x k} : Γ.lookup x = Option.some k → HasKind Γ (.var x) k
  | field {Γ x f ty} : Γ.lookup x = Option.some .record → schema.lookup f = Option.some ty →
      HasKind Γ (.field x f) (.slot ty)
  | none {Γ ty} : HasKind Γ .none (.slot (.option ty))
  | some {Γ e ty} : HasKind Γ e (.slot (.plain ty)) → HasKind Γ (.some e) (.slot (.option ty))
  | valueNone {Γ} : HasKind Γ .valueNone .value
  | valueFrom {Γ e ty} : HasKind Γ e (.slot (.plain ty)) → HasKind Γ (.valueFrom e) .value
  | next {Γ x} : Γ.lookup x = Option.some .iter → HasKind Γ (.next x) .value
  | tryInto {Γ e ty} : HasKind Γ e .value → HasKind Γ (.tryInto e) (.slot (.plain ty))
  | matchOption {Γ e x present absent ty k} : HasKind Γ e (.slot (.option ty)) → Binds x →
      HasKind ((x, .slot (.plain ty)) :: Γ) present k → HasKind Γ absent k →
      HasKind Γ (.matchOption e x present absent) k
  | matchValue {Γ e absent x present k} : HasKind Γ e .value → HasKind Γ absent k → Binds x →
      HasKind ((x, .value) :: Γ) present k → HasKind Γ (.matchValue e absent x present) k

def ValueFrom.Compiles (i : ValueFrom) : Prop :=
  StandsFor generics ["From"] i.name ∧ Binds i.arg ∧
    ∀ e ∈ i.elements, HasKind schema [(i.arg, .record)] e .value

/-- A `let` gives its variable the type of the field that it initialises. -/
inductive InitsCompile : Scope → List (Ident × Expr) → Scope → Prop
  | nil {Γ} : InitsCompile Γ [] Γ
  | cons {Γ Γ' f e ty inits} : schema.lookup f = Option.some ty → HasKind schema Γ e (.slot ty) →
      Binds f → InitsCompile ((f, .slot ty) :: Γ) inits Γ' → InitsCompile Γ ((f, e) :: inits) Γ'

/-- Every field of the struct is given once, by a variable of its type. -/
def FromValue.Compiles (i : FromValue) : Prop :=
  StandsFor generics ["TryFrom", "Result"] i.name ∧ Binds i.arg ∧ Binds i.iter ∧
    i.names = schema.map Prod.fst ∧
    ∃ Γ, InitsCompile schema [(i.iter, .iter), (i.arg, .value)] i.inits Γ ∧
      ∀ f ∈ schema, Γ.lookup f.1 = Option.some (.slot f.2)

end

/-- Values of the variables. -/
inductive Val where
  | value (v : Value)
  | iter (xs : List Value)
  | record (r : Record)
  | slot (s : Slot)

abbrev Env := List (Ident × Val)

/-- Why the generated code does not go on: it has no meaning, or a `?` returns. -/
inductive Failure where
  | stuck
  | returned (e : ConversionError)

/-- Assign to the variable in scope. -/
def Env.set (x : Ident) (v : Val) : Env → Env
  | [] => []
  | (y, w) :: σ => if y = x then (y, v) :: σ else (y, w) :: Env.set x v σ

abbrev Eval := Outcome Failure (Val × Env)

def evalVar (x : Ident) (σ : Env) : Outcome Failure Val := .ofOption .stuck (σ.lookup x)

/-- `try_into` converts into the type that is expected. -/
def Expr.eval : Expr → Kind → Env → Eval
  | .var x, _, σ => do
    let v ← evalVar x σ
    pure (v, σ)
  | .field x f, _, σ => do
    match ← evalVar x σ with
    | .record r => do
      let s ← .ofOption .stuck (r.lookup f)
      pure (.slot s, σ)
    | _ => .err .stuck
  | .none, .slot (.option ty), σ => .ok (.slot ⟨.option ty, Option.none⟩, σ)
  | .some e, .slot (.option ty), σ => do
    match ← e.eval (.slot (.plain ty)) σ with
    | (.slot ⟨.plain ty, a⟩, σ) => pure (.slot ⟨.option ty, Option.some a⟩, σ)
    | _ => .err .stuck
  | .valueNone, _, σ => .ok (.value .none, σ)
  | .valueFrom e, k, σ => do
    match ← e.eval k σ with
    | (.slot ⟨.plain ty, a⟩, σ) => pure (.value (ty.toValue a), σ)
    | _ => .err .stuck
  | .next x, _, σ => do
    match ← evalVar x σ with
    | .iter xs => pure (.value (ZWS.next xs).1, σ.set x (.iter (ZWS.next xs).2))
    | _ => .err .stuck
  | .tryInto e, .slot (.plain ty), σ => do
    match ← e.eval .value σ with
    | (.value v, σ) => do
      let a ← (ty.tryFrom v).mapErr .returned
      pure (.slot ⟨.plain ty, a⟩, σ)
    | _ => .err .stuck
  | .matchOption e x present absent, k, σ => do
    match ← e.eval k σ with
    | (.slot ⟨.option ty, Option.some a⟩, σ) => do
      let (v, σ) ← present.eval k ((x, .slot ⟨.plain ty, a⟩) :: σ)
      pure (v, σ.tail)
    | (.slot ⟨.option _, Option.none⟩, σ) => absent.eval k σ
    | _ => .err .stuck
  | .matchValue e absent x present, k, σ => do
    match ← e.eval .value σ with
    | (.value .none, σ) => absent.eval k σ
    | (.value v, σ) => do
      let (w, σ) ← present.eval k ((x, .value v) :: σ)
      pure (w, σ.tail)
    | _ => .err .stuck
  | _, _, _ => .err .stuck

def ValueFrom.element (i : ValueFrom) (r : Record) (e : Expr) : Outcome Failure Value := do
  match ← e.eval .value [(i.arg, .record r)] with
  | (.value v, _) => pure v
  | _ => .err .stuck

/-- `Value::from` of a struct. -/
def ValueFrom.run (i : ValueFrom) (r : Record) : Outcome Failure Value := do
  let xs ← i.elements.mapM (i.element r)
  pure (.vector xs)

def runInits (schema : Schema) : List (Ident × Expr) → Env → Outcome Failure Env
  | [], σ => .ok σ
  | (f, e) :: inits, σ => do
    let ty ← .ofOption .stuck (schema.lookup f)
    let (v, σ) ← e.eval (.slot ty) σ
    runInits schema inits ((f, v) :: σ)

def runName (σ : Env) (f : Ident) : Outcome Failure (Ident × Slot) := do
  match ← evalVar f σ with
  | .slot s => pure (f, s)
  | _ => .err .stuck

def runNames (names : List Ident) (σ : Env) : Outcome Failure Record := names.mapM (runName σ)

/-- `try_from` of a value. -/
def FromValue.run (schema : Schema) (i : FromValue) (v : Value) : Outcome Failure Record :=
  match v with
  | .vector xs => do
    let σ ← runInits schema i.inits [(i.iter, .iter xs), (i.arg, .value v)]
    runNames i.names σ
  | _ => .err (.returned .mismatchedTypes)

/-- The struct that a schema stands for. -/
def Schema.fields : Schema → Fields
  | [] => .nil
  | (_, .plain ty) :: schema => .required ty (Schema.fields schema)
  | (_, .option ty) :: schema => .optional ty (Schema.fields schema)

/-- A struct by its names. -/
def Schema.record : (schema : Schema) → schema.fields.Carrier → Record
  | [], _ => []
  | (f, .plain ty) :: schema, r => (f, ⟨.plain ty, r.1⟩) :: Schema.record schema r.2
  | (f, .option ty) :: schema, r => (f, ⟨.option ty, r.1⟩) :: Schema.record schema r.2

end ZWS.Macro
