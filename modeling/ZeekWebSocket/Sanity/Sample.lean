import ZeekWebSocket.Spec.Serve

/-! A platform to run the codecs on, and a server to run the service against. The platform
writes the loopback address, its network and the epoch as `std`, `ipnetwork` and `time` do, and
everything else by number. -/

namespace ZWS.Sample

open Base

/-- A bound that all numbers below stay under. -/
def bound : ℤ := 2 ^ 140

def numbered (n : ℤ) : String := "#" ++ n.repr

def readNumbered (s : String) : Option ℤ :=
  match s.toList with
  | '#' :: cs => (parseInt (-bound) bound cs).toOption
  | _ => none

theorem readNumbered_numbered {n : ℤ} (h : -bound ≤ n ∧ n ≤ bound) :
    readNumbered (numbered n) = some n := by
  have hs : (numbered n).toList = '#' :: n.repr.toList := by
    rw [numbered, String.toList_append]
    rfl
  rw [readNumbered, hs]
  simp only [parseInt_repr h.1 h.2]
  rfl

/-- A known text for one element, numbers for the rest. -/
def format {α : Type} [DecidableEq α] (known : α) (text : String) (number : α → ℤ) (a : α) : String :=
  if a = known then text else numbered (number a)

def parse {α : Type} (known : α) (text : String) (element : ℤ → Option α) (s : String) : Option α :=
  if s = text then some known else (readNumbered s).bind element

theorem parse_format {α : Type} [DecidableEq α] {known : α} {text : String} {number : α → ℤ}
    {element : ℤ → Option α} (htext : readNumbered text = none) {a : α}
    (hb : -bound ≤ number a ∧ number a ≤ bound) (he : element (number a) = some a) :
    parse known text element (format known text number a) = some a := by
  unfold parse format
  by_cases h : a = known
  · simp [h]
  · have hne : numbered (number a) ≠ text := by
      rintro rfl
      simp [readNumbered_numbered hb] at htext
    simp [h, hne, readNumbered_numbered hb, he]

def addrNumber : IpAddr → ℤ
  | .v4 a => a.toNat
  | .v6 a => 2 ^ 32 + a.toNat

def addrElement (n : ℤ) : Option IpAddr :=
  if n < 2 ^ 32 then some (.v4 (.ofNat 32 n.toNat)) else some (.v6 (.ofNat 128 (n - 2 ^ 32).toNat))

theorem addrElement_number (a : IpAddr) : addrElement (addrNumber a) = some a := by
  cases a with
  | v4 a =>
    have hlt : addrNumber (.v4 a) < 2 ^ 32 := by
      have := a.isLt
      simp only [addrNumber]
      omega
    rw [addrElement, if_pos hlt, addrNumber, Int.toNat_natCast, BitVec.ofNat_toNat, BitVec.setWidth_eq]
  | v6 a =>
    have hge : ¬ addrNumber (.v6 a) < 2 ^ 32 := by
      simp only [addrNumber]
      omega
    rw [addrElement, if_neg hge, addrNumber, add_sub_cancel_left, Int.toNat_natCast,
      BitVec.ofNat_toNat, BitVec.setWidth_eq]

theorem addrNumber_bound (a : IpAddr) : -bound ≤ addrNumber a ∧ addrNumber a ≤ bound := by
  unfold bound
  cases a with
  | v4 a => have := a.isLt; simp only [addrNumber]; omega
  | v6 a => have := a.isLt; simp only [addrNumber]; omega

def networkNumber : IpNetwork → ℤ
  | .v4 a m => 2 * (a.toNat * 33 + m.val : ℕ)
  | .v6 a m => 2 * (a.toNat * 129 + m.val : ℕ) + 1

def networkElement (n : ℤ) : Option IpNetwork :=
  let k := (n / 2).toNat
  if n % 2 = 0 then some (.v4 (.ofNat 32 (k / 33)) (Fin.ofNat 33 k))
  else some (.v6 (.ofNat 128 (k / 129)) (Fin.ofNat 129 k))

theorem networkElement_number (n : IpNetwork) : networkElement (networkNumber n) = some n := by
  cases n with
  | v4 a m =>
    have hm := m.isLt
    have hk : (networkNumber (.v4 a m) / 2).toNat = a.toNat * 33 + m.val := by
      simp only [networkNumber]
      omega
    have hmod : networkNumber (.v4 a m) % 2 = 0 := by
      simp only [networkNumber]
      omega
    have hmask : Fin.ofNat 33 (a.toNat * 33 + m.val) = m := by
      refine Fin.ext ?_
      simp only [Fin.ofNat]
      omega
    simp only [networkElement, hk]
    rw [if_pos hmod, show (a.toNat * 33 + m.val) / 33 = a.toNat by omega, BitVec.ofNat_toNat,
      BitVec.setWidth_eq, hmask]
  | v6 a m =>
    have hm := m.isLt
    have hk : (networkNumber (.v6 a m) / 2).toNat = a.toNat * 129 + m.val := by
      simp only [networkNumber]
      omega
    have hmod : ¬ networkNumber (.v6 a m) % 2 = 0 := by
      simp only [networkNumber]
      omega
    have hmask : Fin.ofNat 129 (a.toNat * 129 + m.val) = m := by
      refine Fin.ext ?_
      simp only [Fin.ofNat]
      omega
    simp only [networkElement, hk]
    rw [if_neg hmod, show (a.toNat * 129 + m.val) / 129 = a.toNat by omega, BitVec.ofNat_toNat,
      BitVec.setWidth_eq, hmask]

theorem networkNumber_bound (n : IpNetwork) : -bound ≤ networkNumber n ∧ networkNumber n ≤ bound := by
  unfold bound
  cases n with
  | v4 a m => have := a.isLt; have := m.isLt; simp only [networkNumber]; omega
  | v6 a m => have := a.isLt; have := m.isLt; simp only [networkNumber]; omega

def dateTimeElement (n : ℤ) : Option PrimitiveDateTime :=
  if h : minDateTime ≤ n ∧ n ≤ maxDateTime then some ⟨n, h⟩ else none

def epoch : PrimitiveDateTime := ⟨0, by decide⟩

theorem utc_range : -93599 ≤ (0 : ℤ) ∧ (0 : ℤ) ≤ 93599 := by decide

def utc : UtcOffset := ⟨0, utc_range⟩

def loopback : IpAddr := .v4 2130706433

def loopbackNetwork : IpNetwork := .v4 2130706432 8

def epochText : String := "1970-01-01T00:00:00.0"

/-- The platform at offset `o`, with JSON text from outside. -/
def platform (o : Option UtcOffset) (render : Json → String) (read : ByteArray → Option Json) :
    Platform where
  formatAddr := format loopback "127.0.0.1" addrNumber
  parseAddr := parse loopback "127.0.0.1" addrElement
  formatNetwork := format loopbackNetwork "127.0.0.0/8" networkNumber
  parseNetwork := parse loopbackNetwork "127.0.0.0/8" networkElement
  formatDateTime d := some (format epoch epochText PrimitiveDateTime.nanos d)
  parseDateTime := parse epoch epochText dateTimeElement
  localOffset := o
  renderJson := render
  parseJson := read

theorem platform_roundTrips (o : Option UtcOffset) (render : Json → String)
    (read : ByteArray → Option Json) : (platform o render read).RoundTrips where
  addr a := parse_format (by decide) (addrNumber_bound a) (addrElement_number a)
  network n := parse_format (by decide) (networkNumber_bound n) (networkElement_number n)
  dateTime d := by
    obtain ⟨h1, h2⟩ := d.range
    refine ⟨_, rfl, parse_format (by decide) ?_ (dif_pos d.range)⟩
    unfold minDateTime at h1
    unfold maxDateTime at h2
    unfold bound
    omega

def utcPlatform : Platform := platform (some utc) (fun _ => "") fun _ => none

theorem utcPlatform_roundTrips : utcPlatform.RoundTrips := platform_roundTrips _ _ _

/-- What a server may send. Frames stand for them by their length. -/
def messages : List Message :=
  [.ack "endpoint" "version", .error "code" "context", .newData "/ping" (.new "ping" []),
    .dataMessage "/ping" (.other (.string "ping"))]

def frame (n : ℕ) : Frame := .binary ⟨.replicate n 0⟩

def serverPlatform : Platform :=
  platform (some utc) (fun _ => "") fun data =>
    match (messages[data.size]?).map (Message.encode utcPlatform) with
    | some (.ok j) => some j
    | _ => none

/-- A client with room for one event. -/
def setup (sends : List Callback → List (String × Event)) : Setup where
  platform := serverPlatform
  config := ⟨1, Nat.one_pos⟩
  subscriptions := ⟨["/ping"]⟩
  sends := sends
  debug _ := ""

/-- Connect and subscribe, then read the acknowledgement. -/
def handshake : List Action :=
  [.connect (.ok ()), .send (.ok ()), .flushed, .next (some (.ok (frame 0)))]

mutual
/-- Compact JSON text of what has no characters to escape. -/
def render : Json → String
  | .null => "null"
  | .bool b => if b then "true" else "false"
  | .num (.posInt n) => n.toNat.repr
  | .num (.negInt n _) => n.toInt.repr
  | .num (.float x _) => numbered x.bits.toNat
  | .str s => "\"" ++ s ++ "\""
  | .arr xs => "[" ++ ",".intercalate (renderSeq xs) ++ "]"
  | .obj fs => "\x7b" ++ ",".intercalate (renderFields fs) ++ "\x7d"
def renderSeq : List Json → List String
  | [] => []
  | x :: xs => render x :: renderSeq xs
def renderFields : List (String × Json) → List String
  | [] => []
  | (k, j) :: fs => ("\"" ++ k ++ "\":" ++ render j) :: renderFields fs
end

/-- A platform in UTC that reads these documents, told apart by the lengths of their texts. -/
def textPlatform (known : List Json) : Platform :=
  platform (some utc) render fun data => known.find? fun j => (render j).toUTF8.size = data.size

theorem textPlatform_parse {known : List Json} (h : (known.map fun j => (render j).toUTF8.size).Nodup)
    {j : Json} (hj : j ∈ known) :
    (textPlatform known).parseJson ((textPlatform known).renderJson j).toUTF8 = some j := by
  have hfind : known.find? (fun k => (render k).toUTF8.size = (render j).toUTF8.size) = some j := by
    cases hk : known.find? (fun k => (render k).toUTF8.size = (render j).toUTF8.size) with
    | none => simpa using List.find?_eq_none.mp hk j hj
    | some k =>
      have hsize : (render k).toUTF8.size = (render j).toUTF8.size := by simpa using List.find?_some hk
      rw [List.inj_on_of_nodup_map h (List.mem_of_find?_eq_some hk) hj hsize]
  exact hfind

end ZWS.Sample
