/-
# The language of the handshake commands

`parse_metadata` stops at the first property that does not fit into the rest of the command, and
its caller only asks whether bytes are left behind that place. The module determines the commands
that are accepted: besides whole properties the last one may be cut where a count has just been
read to the end. It follows which peers accept each other.
-/

import AFStream.Net.Decoder
import AFStream.Net.Mechanism

namespace AFStream.Net

/-! ## Properties -/

/-- A property as `add_property` can write it. -/
structure Property where
  name : List UInt8
  value : List UInt8
  name_length_lt : name.length < 2 ^ 8
  value_length_lt : value.length < 2 ^ 32

namespace Property

/-- The bytes of a property. -/
def bytes (p : Property) : List UInt8 :=
  p.name.length.toUInt8 :: (p.name ++ (putUInt32 p.value.length ++ p.value))

/-- The bytes that may stand behind the whole properties: nothing, a name without its value, or
a name and the length of a value of which nothing follows. -/
inductive Cut : List UInt8 → Prop
  | nothing : Cut []
  | name (name : List UInt8) (hne : name ≠ []) (hlength : name.length < 2 ^ 8) :
      Cut (name.length.toUInt8 :: name)
  | length (name : List UInt8) (hlength : name.length < 2 ^ 8) (valueLength : ℕ)
      (hpos : 0 < valueLength) (hlt : valueLength < 2 ^ 32) :
      Cut (name.length.toUInt8 :: (name ++ putUInt32 valueLength))

/-- The own socket may be connected to the type that the property names, if it names one. -/
def Suits (options : Options) (p : Property) : Prop :=
  p.name = textBytes "Socket-Type" → checkSocketType options.type p.value = true

/-- The identity behind a property. -/
def record (options : Options) (identity : List UInt8) (p : Property) : List UInt8 :=
  if p.name = textBytes "Identity" ∧ options.recvIdentity = true then p.value else identity

variable {options : Options} {identity : List UInt8} {fuel : ℕ}

theorem getUInt32_putUInt32 {value : ℕ} (hvalue : value < 2 ^ 32) :
    getUInt32 (putUInt32 value) = value := by
  have hlast : (value / 2 ^ 0 % 256) <<< 0 ||| 0 = value % 2 ^ 8 := by
    rw [Nat.or_zero, Nat.shiftLeft_zero, pow_zero, Nat.div_one]
    rfl
  simp only [getUInt32, putUInt32, List.map_cons, List.map_nil, List.zipWith_cons_cons,
    List.zipWith_nil_left, List.foldr_cons, List.foldr_nil, toNat_byte]
  rw [hlast, byte_or_mod value (show 8 + 8 = 16 from rfl),
    byte_or_mod value (show 16 + 8 = 24 from rfl), byte_or_mod value (show 24 + 8 = 32 from rfl),
    Nat.mod_eq_of_lt hvalue]

theorem length_putUInt32 (value : ℕ) : (putUInt32 value).length = 4 := rfl

/-- A number that has been read from four bytes. -/
theorem getUInt32_eq (a b c d : UInt8) :
    getUInt32 [a, b, c, d] =
      a.toNat * 2 ^ 24 + (b.toNat * 2 ^ 16 + (c.toNat * 2 ^ 8 + d.toNat)) := by
  have hb := b.toNat_lt
  have hc := c.toNat_lt
  have hd := d.toNat_lt
  simp only [getUInt32, List.zipWith_cons_cons, List.zipWith_nil_left, List.foldr_cons,
    List.foldr_nil, Nat.shiftLeft_zero, Nat.or_zero]
  have hlow : c.toNat <<< 8 ||| d.toNat = c.toNat * 2 ^ 8 + d.toNat := by
    rw [← Nat.shiftLeft_add_eq_or_of_lt (by omega), Nat.shiftLeft_eq]
  have hmid : b.toNat <<< 16 ||| (c.toNat * 2 ^ 8 + d.toNat) =
      b.toNat * 2 ^ 16 + (c.toNat * 2 ^ 8 + d.toNat) := by
    rw [← Nat.shiftLeft_add_eq_or_of_lt (by omega), Nat.shiftLeft_eq]
  rw [hlow, hmid, ← Nat.shiftLeft_add_eq_or_of_lt (by omega), Nat.shiftLeft_eq]

theorem toUInt8_eq {n : ℕ} {b : UInt8} (h : n % 256 = b.toNat) : n.toUInt8 = b := by
  apply UInt8.toNat_inj.mp
  rw [UInt8.toNat_ofNat', h]

theorem putUInt32_getUInt32 {bytes : List UInt8} (hlength : bytes.length = 4) :
    getUInt32 bytes < 2 ^ 32 ∧ putUInt32 (getUInt32 bytes) = bytes := by
  obtain ⟨a, b, c, d, rfl⟩ : ∃ a b c d, bytes = [a, b, c, d] := by
    match bytes, hlength with
    | [a, b, c, d], _ => exact ⟨a, b, c, d, rfl⟩
  have ha := a.toNat_lt
  have hb := b.toNat_lt
  have hc := c.toNat_lt
  have hd := d.toNat_lt
  rw [getUInt32_eq]
  refine ⟨by omega, ?_⟩
  simp only [putUInt32, List.map_cons, List.map_nil]
  rw [toUInt8_eq (b := a) (by omega), toUInt8_eq (b := b) (by omega),
    toUInt8_eq (b := c) (by omega), toUInt8_eq (b := d) (by omega)]

/-! ## One iteration -/

theorem toNat_length {bytes : List UInt8} (hlength : bytes.length < 2 ^ 8) :
    bytes.length.toUInt8.toNat = bytes.length := by
  rw [UInt8.toNat_ofNat']
  exact Nat.mod_eq_of_lt hlength

instance (options : Options) (p : Property) : Decidable (p.Suits options) :=
  inferInstanceAs (Decidable (_ → _))

/-- The rest of an iteration behind the name and the length of the value. -/
def parseValue (options : Options) (fuel : ℕ) (name : List UInt8) (valueLength : ℕ)
    (left identity : List UInt8) : Except CommandError (List UInt8) :=
  if left.length < valueLength then endMetadata left identity
  else if name = textBytes "Identity" ∧ options.recvIdentity then
    parseMetadata options fuel (left.drop valueLength) (left.take valueLength)
  else if name = textBytes "Socket-Type" ∧
      ¬ checkSocketType options.type (left.take valueLength) then .error .einval
  else parseMetadata options fuel (left.drop valueLength) identity

/-- A name that is there as a whole. -/
theorem parseMetadata_name {name left : List UInt8} (hlength : name.length < 2 ^ 8)
    (hne : name ++ left ≠ []) :
    parseMetadata options (fuel + 1) (name.length.toUInt8 :: (name ++ left)) identity =
      if left.length < 4 then endMetadata left identity
      else parseValue options fuel name (getUInt32 (left.take 4)) (left.drop 4) identity := by
  have hpos := List.length_pos_iff.mpr hne
  have hwhole : ¬ (name ++ left).length < name.length := by
    rw [List.length_append]
    omega
  rw [parseMetadata, if_neg (by rw [List.length_cons]; omega)]
  simp only [List.headD_cons, List.tail_cons, toNat_length hlength]
  rw [if_neg hwhole, List.drop_left, List.take_left]
  rfl

/-- A name and the length of a value. -/
theorem parseMetadata_size {name left : List UInt8} (hlength : name.length < 2 ^ 8)
    {valueLength : ℕ} (hvalue : valueLength < 2 ^ 32) :
    parseMetadata options (fuel + 1)
        (name.length.toUInt8 :: (name ++ (putUInt32 valueLength ++ left))) identity =
      parseValue options fuel name valueLength left identity := by
  have hsize := length_putUInt32 valueLength
  have hne : name ++ (putUInt32 valueLength ++ left) ≠ [] :=
    List.append_ne_nil_of_right_ne_nil _ (List.append_ne_nil_of_left_ne_nil
      (List.length_pos_iff.mp (by omega)) _)
  rw [parseMetadata_name hlength hne, if_neg (by rw [List.length_append]; omega),
    List.take_left' hsize, List.drop_left' hsize, getUInt32_putUInt32 hvalue]

/-- A whole property. -/
theorem parseMetadata_bytes (p : Property) (rest : List UInt8) :
    parseMetadata options (fuel + 1) (p.bytes ++ rest) identity =
      if p.Suits options then parseMetadata options fuel rest (p.record options identity)
      else .error .einval := by
  have hnames : textBytes "Identity" ≠ textBytes "Socket-Type" := by decide
  rw [bytes, List.cons_append, List.append_assoc, List.append_assoc,
    parseMetadata_size p.name_length_lt p.value_length_lt, parseValue,
    if_neg (by rw [List.length_append]; omega), List.drop_left, List.take_left, record]
  by_cases hidentity : p.name = textBytes "Identity" ∧ options.recvIdentity = true
  · have hsuits : p.Suits options := fun htype => absurd (hidentity.1.symm.trans htype) hnames
    rw [if_pos hidentity, if_pos hsuits, if_pos hidentity]
  · rw [if_neg hidentity, if_neg hidentity]
    by_cases htype : p.name = textBytes "Socket-Type" ∧ ¬checkSocketType options.type p.value = true
    · rw [if_pos htype, if_neg fun hsuits : p.Suits options => htype.2 (hsuits htype.1)]
    · have hsuits : p.Suits options := fun hname => Decidable.not_not.mp fun h => htype ⟨hname, h⟩
      rw [if_neg htype, if_pos hsuits]

/-- A cut property ends the loop with nothing left. -/
theorem parseMetadata_cut {tail : List UInt8} (h : Cut tail) (hfuel : tail.length ≤ fuel) :
    parseMetadata options fuel tail identity = .ok identity := by
  cases fuel with
  | zero =>
      obtain rfl : tail = [] := List.eq_nil_of_length_eq_zero (Nat.le_zero.mp hfuel)
      rfl
  | succ fuel =>
      cases h with
      | nothing => rfl
      | name name hne hlength =>
          have hname : parseMetadata options (fuel + 1) (name.length.toUInt8 :: (name ++ []))
              identity = endMetadata [] identity :=
            parseMetadata_name hlength (by rwa [List.append_nil])
          rw [List.append_nil] at hname
          exact hname
      | length name hlength valueLength hpos hlt =>
          have hsize : parseMetadata options (fuel + 1)
              (name.length.toUInt8 :: (name ++ (putUInt32 valueLength ++ []))) identity =
                parseValue options fuel name valueLength [] identity :=
            parseMetadata_size hlength hlt
          rw [List.append_nil, parseValue, List.length_nil, if_pos hpos] at hsize
          exact hsize

/-- Other bytes end the loop, and only those of a cut property leave nothing. -/
theorem bytes_or_end (data : List UInt8) :
    (∃ (p : Property) (rest : List UInt8), data = p.bytes ++ rest) ∨
      ∃ left, (left = [] → Cut data) ∧ ∀ options fuel identity,
        parseMetadata options (fuel + 1) data identity = endMetadata left identity := by
  by_cases hshort : data.length ≤ 1
  · refine .inr ⟨data, ?_, fun options fuel identity => if_pos hshort⟩
    rintro rfl
    exact .nothing
  obtain ⟨b, left, rfl⟩ := List.exists_cons_of_ne_nil (l := data) (by rintro rfl; simp at hshort)
  have hne : left ≠ [] := by
    rintro rfl
    exact hshort le_rfl
  have hlt : b.toNat < 2 ^ 8 := b.toNat_lt
  by_cases hname : left.length < b.toNat
  · refine .inr ⟨left, fun h => absurd h hne, fun options fuel identity => ?_⟩
    rw [parseMetadata, if_neg hshort]
    exact if_pos hname
  obtain ⟨name, left, rfl, hlength⟩ : ∃ name left', left = name ++ left' ∧
      name.length = b.toNat :=
    ⟨_, _, (List.take_append_drop b.toNat left).symm,
      List.length_take_of_le (Nat.not_lt.mp hname)⟩
  obtain rfl : name.length.toUInt8 = b := toUInt8_eq (by rw [hlength]; omega)
  rw [← hlength] at hlt
  by_cases hfour : left.length < 4
  · refine .inr ⟨left, ?_, fun options fuel identity => ?_⟩
    · rintro rfl
      rw [List.append_nil] at hne ⊢
      exact .name name hne hlt
    · rw [parseMetadata_name hlt hne, if_pos hfour]
  obtain ⟨size, left, rfl, hsize⟩ : ∃ size left', left = size ++ left' ∧ size.length = 4 :=
    ⟨_, _, (List.take_append_drop 4 left).symm, List.length_take_of_le (Nat.not_lt.mp hfour)⟩
  obtain ⟨hvalue, hput⟩ := putUInt32_getUInt32 hsize
  rw [← hput]
  by_cases hlong : left.length < getUInt32 size
  · refine .inr ⟨left, ?_, fun options fuel identity => ?_⟩
    · rintro rfl
      rw [List.append_nil]
      exact .length name hlt _ hlong hvalue
    · rw [parseMetadata_size hlt hvalue, parseValue, if_pos hlong]
  · obtain ⟨value, rest, rfl, hlast⟩ : ∃ value rest, left = value ++ rest ∧
        value.length = getUInt32 size :=
      ⟨_, _, (List.take_append_drop (getUInt32 size) left).symm,
        List.length_take_of_le (Nat.not_lt.mp hlong)⟩
    rw [← hlast] at hvalue ⊢
    refine .inl ⟨⟨name, value, hlt, hvalue⟩, rest, ?_⟩
    rw [bytes, List.cons_append, List.append_assoc, List.append_assoc]

/-! ## The language -/

theorem length_bytes_pos (p : Property) : 0 < p.bytes.length := Nat.succ_pos _

/-- Whole properties that suit are read one after the other. -/
theorem parseMetadata_append (props : List Property) (hsuits : ∀ p ∈ props, p.Suits options)
    (fuel : ℕ) (tail identity : List UInt8) :
    parseMetadata options (props.length + fuel) (props.flatMap bytes ++ tail) identity =
      parseMetadata options fuel tail (props.foldl (record options) identity) := by
  induction props generalizing identity with
  | nil => rw [List.length_nil, Nat.zero_add]; rfl
  | cons p props ih =>
      rw [List.forall_mem_cons] at hsuits
      rw [List.length_cons, Nat.add_right_comm, List.flatMap_cons, List.append_assoc,
        parseMetadata_bytes, if_pos hsuits.1, ih hsuits.2]
      rfl

theorem length_le_length_flatMap (props : List Property) :
    props.length ≤ (props.flatMap bytes).length := by
  induction props with
  | nil => exact le_rfl
  | cons p props ih =>
      have hpos := p.length_bytes_pos
      rw [List.flatMap_cons, List.length_append, List.length_cons]
      omega

/-- The loop comes to the bytes behind whole properties that suit. -/
theorem parseMetadata_flatMap {props : List Property} (hsuits : ∀ p ∈ props, p.Suits options)
    (tail identity : List UInt8) :
    ∃ fuel, tail.length ≤ fuel ∧ parseMetadata options (props.flatMap bytes ++ tail).length
      (props.flatMap bytes ++ tail) identity =
        parseMetadata options fuel tail (props.foldl (record options) identity) := by
  have hle := length_le_length_flatMap props
  refine ⟨(props.flatMap bytes).length - props.length + tail.length, by omega, ?_⟩
  rw [← parseMetadata_append props hsuits, List.length_append, ← Nat.add_assoc,
    Nat.add_sub_cancel' hle]

/-- How the loop ends: with bytes of a cut property, with a property that does not suit, or with
bytes that are left. -/
inductive Ended (options : Options) (data identity : List UInt8) :
    Except CommandError (List UInt8) → Prop
  | accepted (props : List Property) (hsuits : ∀ p ∈ props, p.Suits options) (tail : List UInt8)
      (hcut : Cut tail) (hdata : data = props.flatMap bytes ++ tail) :
      Ended options data identity (.ok (props.foldl (record options) identity))
  | unsuited (props : List Property) (hsuits : ∀ p ∈ props, p.Suits options) (p : Property)
      (hunsuited : ¬ p.Suits options) (rest : List UInt8)
      (hdata : data = props.flatMap bytes ++ (p.bytes ++ rest)) :
      Ended options data identity (.error .einval)
  | left : Ended options data identity (.error .eproto)

theorem ended_parseMetadata {data : List UInt8} (hfuel : data.length ≤ fuel) :
    Ended options data identity (parseMetadata options fuel data identity) := by
  induction fuel generalizing data identity with
  | zero =>
      obtain rfl : data = [] := List.eq_nil_of_length_eq_zero (Nat.le_zero.mp hfuel)
      exact .accepted [] (by simp) [] .nothing rfl
  | succ fuel ih =>
      rcases bytes_or_end data with ⟨p, rest, rfl⟩ | ⟨left, hcut, hend⟩
      · rw [parseMetadata_bytes]
        split_ifs with hsuits
        · have hpos := p.length_bytes_pos
          rw [List.length_append] at hfuel
          have hrest : Ended options rest (p.record options identity)
              (parseMetadata options fuel rest (p.record options identity)) := ih (by omega)
          revert hrest
          generalize parseMetadata options fuel rest (p.record options identity) = result
          intro hrest
          cases hrest with
          | accepted props hprops tail hcut hrest =>
              refine .accepted (p :: props) (List.forall_mem_cons.mpr ⟨hsuits, hprops⟩) tail hcut ?_
              rw [hrest, List.flatMap_cons, List.append_assoc]
          | unsuited props hprops q hunsuited rest' hrest =>
              refine .unsuited (p :: props) (List.forall_mem_cons.mpr ⟨hsuits, hprops⟩) q hunsuited
                rest' ?_
              rw [hrest, List.flatMap_cons, List.append_assoc]
          | left => exact .left
        · exact .unsuited [] (by simp) p hsuits rest rfl
      · rw [hend, endMetadata]
        split_ifs with hleft
        · exact .accepted [] (by simp) data (hcut hleft) rfl
        · exact .left

theorem parseMetadata_eq_ok_iff {data result : List UInt8} :
    parseMetadata options data.length data identity = .ok result ↔
      ∃ (props : List Property) (tail : List UInt8), (∀ p ∈ props, p.Suits options) ∧ Cut tail ∧
        data = props.flatMap bytes ++ tail ∧ result = props.foldl (record options) identity := by
  constructor
  · intro hparse
    have hended : Ended options data identity (parseMetadata options data.length data identity) :=
      ended_parseMetadata le_rfl
    rw [hparse] at hended
    cases hended with
    | accepted props hsuits tail hcut hdata => exact ⟨props, tail, hsuits, hcut, hdata, rfl⟩
  · rintro ⟨props, tail, hsuits, hcut, rfl, rfl⟩
    obtain ⟨fuel, hfuel, hparse⟩ := parseMetadata_flatMap hsuits tail identity
    rw [hparse, parseMetadata_cut hcut hfuel]

theorem parseMetadata_eq_einval_iff {data : List UInt8} :
    parseMetadata options data.length data identity = .error .einval ↔
      ∃ (props : List Property) (p : Property) (rest : List UInt8),
        (∀ p ∈ props, p.Suits options) ∧ ¬ p.Suits options ∧
          data = props.flatMap bytes ++ (p.bytes ++ rest) := by
  constructor
  · intro hparse
    have hended : Ended options data identity (parseMetadata options data.length data identity) :=
      ended_parseMetadata le_rfl
    rw [hparse] at hended
    cases hended with
    | unsuited props hsuits p hunsuited rest hdata =>
        exact ⟨props, p, rest, hsuits, hunsuited, hdata⟩
  · rintro ⟨props, p, rest, hsuits, hunsuited, rfl⟩
    obtain ⟨fuel, hfuel, hparse⟩ := parseMetadata_flatMap hsuits (p.bytes ++ rest) identity
    have hpos := p.length_bytes_pos
    rw [List.length_append] at hfuel
    obtain ⟨fuel, rfl⟩ := Nat.exists_eq_add_of_lt (show 0 < fuel by omega)
    rw [hparse, Nat.zero_add, parseMetadata_bytes, if_neg hunsuited]

end Property

/-! ## Commands -/

namespace NullMechanism

variable {m m' : NullMechanism} {options peer : Options} {msg : Msg}

/-- A command behind its name. -/
theorem processHandshakeCommand_append (m : NullMechanism) (options : Options) {data : List UInt8}
    (hcontent : msg.content = readyName ++ data) (hnew : m.readyCommandReceived = false) :
    m.processHandshakeCommand options msg =
      (parseMetadata options data.length data m.identity).map fun identity =>
        { m with readyCommandReceived := true, identity := identity } := by
  have hname : msg.content.take 6 = readyName := by
    rw [hcontent]
    exact List.take_left' rfl
  have hdata : msg.content.drop 6 = data := by
    rw [hcontent]
    exact List.drop_left' rfl
  rw [processHandshakeCommand, if_neg (by rw [hnew]; decide), if_neg (not_not_intro hname)]
  simp only [hdata]

/-- A command that is not the first one, or has another name. -/
theorem processHandshakeCommand_eproto
    (h : m.readyCommandReceived = true ∨ msg.content.take 6 ≠ readyName) :
    m.processHandshakeCommand options msg = .error .eproto := by
  rw [processHandshakeCommand]
  split_ifs with hreceived hname
  · rfl
  · rfl
  · rcases h with h | h
    · exact absurd h hreceived
    · exact absurd h hname

/-- **The commands that are accepted.** They have the name and are the first ones, and behind the
name stand properties of which no type of a socket is wrong, and perhaps the beginning of one more
that has been cut where a count ends. The last identity is kept. The error tells a wrong type from
everything else. -/
theorem command_accepted_iff (m m' : NullMechanism) (options : Options) (msg : Msg) :
    (m.processHandshakeCommand options msg = .ok m' ↔
      m.readyCommandReceived = false ∧ ∃ (props : List Property) (tail : List UInt8),
        (∀ p ∈ props, p.Suits options) ∧ Property.Cut tail ∧
        msg.content = readyName ++ (props.flatMap Property.bytes ++ tail) ∧
        m' = { m with
          readyCommandReceived := true
          identity := props.foldl (Property.record options) m.identity }) ∧
    (m.processHandshakeCommand options msg = .error .einval ↔
      m.readyCommandReceived = false ∧ ∃ (props : List Property) (p : Property)
        (rest : List UInt8), (∀ p ∈ props, p.Suits options) ∧ ¬ p.Suits options ∧
        msg.content = readyName ++ (props.flatMap Property.bytes ++ (p.bytes ++ rest))) := by
  by_cases hready : m.readyCommandReceived = true ∨ msg.content.take 6 ≠ readyName
  · have hname : ∀ data, m.readyCommandReceived = false → msg.content ≠ readyName ++ data := by
      rintro data hnew hcontent
      rcases hready with hreceived | hother
      · exact Bool.false_ne_true (hnew.symm.trans hreceived)
      · exact hother (by rw [hcontent]; exact List.take_left' rfl)
    rw [processHandshakeCommand_eproto hready]
    refine ⟨⟨fun h => (by cases h), ?_⟩, ⟨fun h => (by cases h), ?_⟩⟩
    · rintro ⟨hnew, props, tail, -, -, hcontent, -⟩
      exact absurd hcontent (hname _ hnew)
    · rintro ⟨hnew, props, p, rest, -, -, hcontent⟩
      exact absurd hcontent (hname _ hnew)
  · obtain ⟨hreceived, hname⟩ := not_or.mp hready
    have hnew : m.readyCommandReceived = false := Bool.not_eq_true _ ▸ hreceived
    obtain ⟨data, hcontent⟩ : ∃ data, msg.content = readyName ++ data :=
      ⟨msg.content.drop 6, by rw [← Decidable.not_not.mp hname, List.take_append_drop]⟩
    rw [processHandshakeCommand_append m options hcontent hnew, hcontent]
    simp only [List.append_cancel_left_eq, hnew, true_and]
    constructor
    · constructor
      · intro haccepted
        cases hparse : parseMetadata options data.length data m.identity with
        | error _ =>
            rw [hparse] at haccepted
            cases haccepted
        | ok identity =>
            rw [hparse] at haccepted
            obtain ⟨props, tail, hsuits, hcut, hdata, rfl⟩ :=
              Property.parseMetadata_eq_ok_iff.mp hparse
            exact ⟨props, tail, hsuits, hcut, hdata, (Except.ok.inj haccepted).symm⟩
      · rintro ⟨props, tail, hsuits, hcut, hdata, rfl⟩
        rw [Property.parseMetadata_eq_ok_iff.mpr ⟨props, tail, hsuits, hcut, hdata, rfl⟩]
        rfl
    · rw [← Property.parseMetadata_eq_einval_iff]
      cases parseMetadata options data.length data m.identity with
      | error _ => exact ⟨fun h => congrArg _ (Except.error.inj h),
          fun h => congrArg _ (Except.error.inj h)⟩
      | ok _ => exact ⟨fun h => (by cases h), fun h => (by cases h)⟩

/-! ## Honest peers -/

theorem length_textBytes (text : String) : (textBytes text).length = text.length :=
  List.length_map _

/-- A property of the own command. -/
def ownProperty (name : String) (value : List UInt8) (hname : name.length < 2 ^ 8)
    (hvalue : value.length < 2 ^ 32) : Property where
  name := textBytes name
  value := value
  name_length_lt := by rwa [length_textBytes]
  value_length_lt := hvalue

theorem bytes_ownProperty (name : String) (value : List UInt8) (hname : name.length < 2 ^ 8)
    (hvalue : value.length < 2 ^ 32) :
    (ownProperty name value hname hvalue).bytes = addProperty name value := by
  rw [Property.bytes, ownProperty, addProperty, length_textBytes, List.append_assoc]
  rfl

/-- Sockets of this type tell their identity. -/
def TellsIdentity (type : SocketType) : Prop := type = .req ∨ type = .dealer ∨ type = .router

instance (type : SocketType) : Decidable (TellsIdentity type) :=
  inferInstanceAs (Decidable (_ ∨ _ ∨ _))

theorem checkSocketType_socketTypeString (type other : SocketType) :
    checkSocketType type (textBytes (socketTypeString other)) = true ↔ other ∈ peerTypes type := by
  cases type <;> cases other <;> decide

/-- Two sockets agree on whether they may be connected. -/
theorem mem_peerTypes_comm (type other : SocketType) :
    other ∈ peerTypes type ↔ type ∈ peerTypes other := by
  cases type <;> cases other <;> decide

/-- The properties of the command. -/
theorem exists_properties (options : Options) (hidentity : peer.identity.length < 2 ^ 8) :
    ∃ (first : Property) (props : List Property),
      readyCommand peer = readyName ++ (first.bytes ++ props.flatMap Property.bytes) ∧
      first.name = textBytes "Socket-Type" ∧
      first.value = textBytes (socketTypeString peer.type) ∧
      (∀ p ∈ props, p.Suits options) ∧
      ∀ identity, props.foldl (Property.record options) identity =
        if TellsIdentity peer.type ∧ options.recvIdentity = true then peer.identity
        else identity := by
  have hshort : (textBytes (socketTypeString peer.type)).length < 2 ^ 32 := by
    cases peer.type <;> decide
  have hlong : peer.identity.length < 2 ^ 32 := hidentity.trans (by decide)
  obtain ⟨first, hfirst⟩ : ∃ p, p = ownProperty "Socket-Type"
    (textBytes (socketTypeString peer.type)) (by decide) hshort := ⟨_, rfl⟩
  obtain ⟨second, hsecond⟩ : ∃ p, p = ownProperty "Identity" peer.identity (by decide) hlong :=
    ⟨_, rfl⟩
  refine ⟨first, if TellsIdentity peer.type then [second] else [], ?_, ?_, ?_, ?_, ?_⟩
  · have hfirst' := bytes_ownProperty "Socket-Type" _ (by decide) hshort
    have hsecond' := bytes_ownProperty "Identity" peer.identity (by decide) hlong
    rw [← hfirst] at hfirst'
    rw [← hsecond] at hsecond'
    rw [readyCommand, List.append_assoc, hfirst']
    change _ ++ (_ ++ if TellsIdentity peer.type then _ else _) = _
    split_ifs
    · rw [List.flatMap_singleton, hsecond']
    · rfl
  · rw [hfirst]
    rfl
  · rw [hfirst]
    rfl
  · split_ifs
    · intro p hp
      rw [List.mem_singleton.mp hp, hsecond]
      intro hname
      exact absurd (show textBytes "Identity" = textBytes "Socket-Type" from hname) (by decide)
    · intro p hp
      cases hp
  · intro identity
    by_cases htells : TellsIdentity peer.type
    · have hname : second.name = textBytes "Identity" := by rw [hsecond]; rfl
      have hvalue : second.value = peer.identity := by rw [hsecond]; rfl
      rw [if_pos htells, List.foldl_cons, List.foldl_nil, Property.record, hname, hvalue]
      simp only [htells, true_and]
    · rw [if_neg htells, if_neg fun h => htells h.1]
      rfl

/-- **The command of a peer.** It is accepted exactly if the sockets may be connected, and the
identity is kept if the own side asks for it and the peer tells it. -/
theorem processHandshakeCommand_readyCommand (hnew : m.readyCommandReceived = false)
    (hidentity : peer.identity.length < 2 ^ 8) :
    m.processHandshakeCommand options ⟨false, true, readyCommand peer⟩ =
      if peer.type ∈ peerTypes options.type then
        .ok { m with
          readyCommandReceived := true
          identity := if TellsIdentity peer.type ∧ options.recvIdentity = true then peer.identity
            else m.identity }
      else .error .einval := by
  obtain ⟨first, props, hcommand, hname, hvalue, hsuits, hrecord⟩ :=
    exists_properties options hidentity
  have hfirst : first.Suits options ↔ peer.type ∈ peerTypes options.type := by
    rw [← checkSocketType_socketTypeString, ← hvalue]
    exact ⟨fun h => h hname, fun h _ => h⟩
  have hkeep : ∀ identity, Property.record options identity first = identity := by
    intro identity
    refine if_neg fun h => ?_
    rw [hname] at h
    exact absurd h.1 (by decide)
  rw [processHandshakeCommand_append m options hcommand hnew]
  by_cases htype : peer.type ∈ peerTypes options.type
  · have hparse : parseMetadata options (first.bytes ++ props.flatMap Property.bytes).length
        (first.bytes ++ props.flatMap Property.bytes) m.identity = .ok _ :=
      Property.parseMetadata_eq_ok_iff.mpr ⟨first :: props, [],
        List.forall_mem_cons.mpr ⟨hfirst.mpr htype, hsuits⟩, .nothing,
        (by rw [List.flatMap_cons, List.append_nil]), rfl⟩
    rw [hparse, List.foldl_cons, hkeep, hrecord, if_pos htype]
    rfl
  · have hparse : parseMetadata options (first.bytes ++ props.flatMap Property.bytes).length
        (first.bytes ++ props.flatMap Property.bytes) m.identity = .error .einval :=
      Property.parseMetadata_eq_einval_iff.mpr ⟨[], first, _, (by simp),
        fun h => htype (hfirst.mp h), rfl⟩
    rw [hparse, if_neg htype]
    rfl

end NullMechanism

end AFStream.Net
