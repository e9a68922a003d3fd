import ZeekWebSocket.Spec.Wire

/-! The wire format as a relation between JSON and values. It says what a reader may
accept and nothing about how it goes through the input. -/

namespace ZWS

open Base

/-- Fields that a tagged object does not look at. -/
def Unkeyed (fs : List (String × Json)) : Prop := ∀ f ∈ fs, f.1 ≠ tagKey ∧ f.1 ≠ contentKey

/-- Fields that a table entry does not look at. -/
def Unnamed (fs : List (String × Json)) : Prop := ∀ f ∈ fs, f.1 ≠ "key" ∧ f.1 ≠ "value"

namespace Value

/-- A tagged value is open at its content `c`: the tag `t` is known, `c` is read from a buffer if
`buf'` says so, and `closed` holds if nothing else spoils the value. -/
inductive Opens (buf : Bool) : Json → Tag → Bool → Json → Prop → Prop
  | tagFirst {pre mid post tj t c} : Unkeyed pre → readTag buf tj = .ok t → Unkeyed mid →
      Opens buf (.obj (pre ++ (tagKey, tj) :: (mid ++ (contentKey, c) :: post))) t buf c
        (Unkeyed post)
  | contentFirst {pre mid post tj t c} : Unkeyed pre → Unkeyed mid → readTag buf tj = .ok t →
      Opens buf (.obj (pre ++ (contentKey, c) :: (mid ++ (tagKey, tj) :: post))) t true c
        (Unkeyed post)
  | pair {rest tj t c} : readTag buf tj = .ok t → Opens buf (.arr (tj :: c :: rest)) t buf c (rest = [])

/-- A tag alone, which is all that `none` needs. -/
inductive Bare (buf : Bool) : Json → Prop
  | mk {pre post tj} : Unkeyed pre → readTag buf tj = .ok .none → Unkeyed post →
      Bare buf (.obj (pre ++ (tagKey, tj) :: post))

/-- A table entry has both halves, and the reader comes to `first` before `second`. -/
inductive OpensEntry : Json → Json → Json → Bool → Prop → Prop
  | keyFirst {pre mid post kj vj} : Unnamed pre → Unnamed mid →
      OpensEntry (.obj (pre ++ ("key", kj) :: (mid ++ ("value", vj) :: post))) kj vj true (Unnamed post)
  | valueFirst {pre mid post kj vj} : Unnamed pre → Unnamed mid →
      OpensEntry (.obj (pre ++ ("value", vj) :: (mid ++ ("key", kj) :: post))) vj kj false
        (Unnamed post)
  | pair {rest kj vj} : OpensEntry (.arr (kj :: vj :: rest)) kj vj true (rest = [])

/-- A table entry with one half only, or with one half twice before the other. -/
inductive CutEntry : Json → Json → Prop
  | alone {pre post k j} : Unnamed pre → k = "key" ∨ k = "value" → Unnamed post →
      CutEntry (.obj (pre ++ (k, j) :: post)) j
  | twice {pre mid post k j j'} : Unnamed pre → k = "key" ∨ k = "value" → Unnamed mid →
      CutEntry (.obj (pre ++ (k, j) :: (mid ++ (k, j') :: post))) j
  | single {j} : CutEntry (.arr [j]) j

/-- Key and value from the two halves of an entry as they were read. -/
def pairUp (keyFirst : Bool) (a b : Value) : Value × Value := if keyFirst then (a, b) else (b, a)

mutual
/-- `j` stands for `v`. -/
inductive Denotes (P : Platform) : Bool → Json → Value → Prop
  | bare {buf j} : Bare buf j → Denotes P buf j .none
  | content {buf buf' j t c closed v} : Opens buf j t buf' c closed → closed →
      DenotesContent P buf' t c v → Denotes P buf j v
inductive DenotesContent (P : Platform) : Bool → Tag → Json → Value → Prop
  | leaf {buf t c v} : decodeLeaf P t c = .ok v → DenotesContent P buf t c v
  | vector {buf js vs} : DenotesSeq P buf js vs → DenotesContent P buf .vector (.arr js) (.vector vs)
  | set {buf js vs} : DenotesSeq P buf js vs →
      DenotesContent P buf .set (.arr js) (.set (collectBy cmp keepOld vs))
  | table {buf js es} : DenotesEntries P buf js es →
      DenotesContent P buf .table (.arr js) (.table (collectBy (byKey cmp) keepNew es))
inductive DenotesSeq (P : Platform) : Bool → List Json → List Value → Prop
  | nil {buf} : DenotesSeq P buf [] []
  | cons {buf j js v vs} : Denotes P buf j v → DenotesSeq P buf js vs →
      DenotesSeq P buf (j :: js) (v :: vs)
inductive DenotesEntries (P : Platform) : Bool → List Json → List (Value × Value) → Prop
  | nil {buf} : DenotesEntries P buf [] []
  | cons {buf j js e es} : DenotesEntry P buf j e → DenotesEntries P buf js es →
      DenotesEntries P buf (j :: js) (e :: es)
inductive DenotesEntry (P : Platform) : Bool → Json → Value × Value → Prop
  | halves {buf j first second keyFirst closed a b} : OpensEntry j first second keyFirst closed →
      closed → Denotes P buf first a → Denotes P buf second b →
      DenotesEntry P buf j (pairUp keyFirst a b)
end

end Value

end ZWS
