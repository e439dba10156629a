import MessagePack.Header.Form

/-!
Headers: the leading byte of an element and the words after it.

`encode` picks the narrowest form for a tag; `decode` accepts every width and reads exactly
`size` bytes, so what follows a header never changes how it is read.
-/

namespace MessagePack.Header

def maxSize : Nat := 9

/-- Header bytes announced by a leading byte, itself included. -/
def size (marker : UInt8) : Nat :=
  (Form.ofMarker marker).bodyLength + 1

/-- A leading byte followed by one number. -/
def word (form : Form) (n : Nat) : Bytes :=
  form.marker :: bigEndian form.bodyLength n

def requireNativeFloats (options : TagOptions) : Except Error Unit :=
  requireFeature (options.float = .native) .floatingPoint

def encodeInteger (value : Int) : Bytes :=
  if 0 ≤ value then
    word (.forUnsigned value.toNat) value.toNat
  else
    word (.forNegative value.natAbs) (Int64.ofInt value).toUInt64.toNat

def encodeExt (type : Int8) (length : Nat) : Bytes :=
  match Form.forExt length with
  | .ext k => (Form.ext k).marker :: bigEndian (Form.wordLength k) length ++ [type.toUInt8]
  | form => [form.marker, type.toUInt8]

def encode (options : TagOptions) : Tag → Except Error Bytes
  | .nil => .ok [Form.nil.marker]
  | .bool value => .ok [(Form.bool value).marker]
  | .int value => .ok (encodeInteger value.toInt)
  | .uint value => .ok (encodeInteger value.toNat)
  | .float bits => do
      requireNativeFloats options
      return word .float bits.toNat
  | .double bits => do
      requireNativeFloats options
      return word .double bits.toNat
  | .rawFloat bits => .ok (word .float bits.toNat)
  | .rawDouble bits => .ok (word .double bits.toNat)
  | .str length => .ok (word (.forStr options.version length.toNat) length.toNat)
  | .bin length => .ok (word (.forBin options.version length.toNat) length.toNat)
  | .array count => .ok (word (.forArray count.toNat) count.toNat)
  | .map pairs => .ok (word (.forMap pairs.toNat) pairs.toNat)
  | .ext type length =>
      if !options.extensions then
        .error (.usage (.featureDisabled .extensions))
      else if options.version = .v4 then
        .error (.usage (.notRepresentable .ext))
      else
        .ok (encodeExt type length.toNat)

/-- The tag a form stands for, given the bytes between its leading byte and its end. -/
def tag (float : FloatMode) (body : Bytes) : Form → Tag
  | .positiveFix value => .uint (UInt64.ofNat value)
  | .fixMap pairs => .map (UInt32.ofNat pairs)
  | .fixArray count => .array (UInt32.ofNat count)
  | .fixStr length => .str (UInt32.ofNat length)
  | .nil | .reserved => .nil
  | .bool value => .bool value
  | .bin _ => .bin (UInt32.ofNat (ofBigEndian body))
  | .ext k =>
      .ext (Int8.ofInt (signedOfBigEndian (body.drop (Form.wordLength k))))
        (UInt32.ofNat (ofBigEndian (body.take (Form.wordLength k))))
  | .float =>
      match float with
      | .native => .float (UInt32.ofNat (ofBigEndian body))
      | .raw => .rawFloat (UInt32.ofNat (ofBigEndian body))
  | .double =>
      match float with
      | .native => .double (UInt64.ofNat (ofBigEndian body))
      | .raw => .rawDouble (UInt64.ofNat (ofBigEndian body))
  | .uint _ => .uint (UInt64.ofNat (ofBigEndian body))
  | .int _ => .int (Int64.ofInt (signedOfBigEndian body))
  | .fixExt k => .ext (Int8.ofInt (signedOfBigEndian body)) (UInt32.ofNat (Form.wordLength k))
  | .str _ => .str (UInt32.ofNat (ofBigEndian body))
  | .array _ => .array (UInt32.ofNat (ofBigEndian body))
  | .map _ => .map (UInt32.ofNat (ofBigEndian body))
  | .negativeFix value => .int (Int64.ofInt (value - 32))

/-- Why a form is refused, whatever its body. -/
def refusal? (options : TagOptions) (form : Form) : Option Invalid :=
  if form = .reserved then
    some (.reservedMarker form.marker)
  else if options.version = .v4 ∧ !form.inLegacy then
    some (.legacyMarker form.marker)
  else if form.isExt ∧ !options.extensions then
    some .extensionsDisabled
  else
    none

/-- The tag at the start of `buffer` and the size of its header. -/
def decode (options : TagOptions) (buffer : Bytes) : Except Error (Tag × Nat) :=
  match buffer with
  | [] => .error (.truncated 1 0)
  | marker :: rest =>
      let form := Form.ofMarker marker
      let body := rest.take form.bodyLength
      if body.length < form.bodyLength then
        .error (.truncated (form.bodyLength + 1) (body.length + 1))
      else
        match refusal? options form with
        | some reason => .error (.invalid reason)
        | none => .ok (tag options.float body form, form.bodyLength + 1)

theorem decode_size_pos {options : TagOptions} {buffer : Bytes} {result : Tag} {n : Nat}
    (hdecode : decode options buffer = .ok (result, n)) : 0 < n ∧ n ≤ buffer.length := by
  unfold decode at hdecode
  split at hdecode
  · cases hdecode
  · next marker rest =>
    simp only at hdecode
    split at hdecode
    · cases hdecode
    · next hlength =>
      split at hdecode
      · cases hdecode
      · cases hdecode
        simp only [List.length_take] at hlength
        simp only [List.length_cons]
        omega

end MessagePack.Header
