/-
# Text files and strings in memory

A string in memory ends at its first zero byte; whoever reads one must be sure that
there is such a byte. A text file is a list of bytes, from which `fgets` takes one line,
or as much of it as fits. The pieces that one call after the other returns are the chunks
of the file, and the rule of this module is an induction over them. Strings are taken
apart by `strtok`, which skips empty fields, and read as numbers by `atoi`. The functions
that write strings into buffers are undefined where they leave one.
-/

import AFStream.Foundation.Bytes
import Mathlib.Data.List.TakeWhile

namespace AFStream.Foundation

/-! ## Strings -/

/-- The string at the start of some memory. -/
def cString (memory : List UInt8) : List UInt8 := memory.takeWhile (· ≠ 0)

theorem zero_not_mem_cString (memory : List UInt8) : 0 ∉ cString memory := by
  intro hmem
  simpa using List.mem_takeWhile_imp hmem

theorem length_cString_le (memory : List UInt8) : (cString memory).length ≤ memory.length :=
  (List.takeWhile_prefix _).length_le

/-- A piece without a zero byte belongs to the string. -/
theorem cString_append {text : List UInt8} (htext : 0 ∉ text) (rest : List UInt8) :
    cString (text ++ rest) = text ++ cString rest := by
  apply List.takeWhile_append_of_pos
  intro b hb
  simpa using ne_of_mem_of_not_mem hb htext

@[simp]
theorem cString_zero (rest : List UInt8) : cString (0 :: rest) = [] := by
  simp [cString]

theorem cString_cons {b : UInt8} (hb : b ≠ 0) (rest : List UInt8) :
    cString (b :: rest) = b :: cString rest := by
  simp [cString, hb]

/-- A terminator ends every string. -/
theorem cString_append_zero (memory rest : List UInt8) :
    cString (memory ++ 0 :: rest) = cString memory := by
  induction memory with
  | nil => exact cString_zero rest
  | cons b memory ih =>
      by_cases hb : b = 0
      · rw [hb, List.cons_append, cString_zero, cString_zero]
      · rw [List.cons_append, cString_cons hb, cString_cons hb, ih]

theorem cString_of_not_mem {text : List UInt8} (htext : 0 ∉ text) : cString text = text := by
  have happend := cString_append htext []
  have hnil : cString [] = [] := rfl
  rwa [hnil, List.append_nil] at happend

/-- A string that is shorter than its memory has a terminator. -/
theorem exists_terminator {memory : List UInt8} (h : (cString memory).length < memory.length) :
    ∃ rest, memory = cString memory ++ 0 :: rest := by
  induction memory with
  | nil => exact absurd h (Nat.not_lt_zero _)
  | cons b memory ih =>
      by_cases hb : b = 0
      · exact ⟨memory, by rw [hb, cString_zero, List.nil_append]⟩
      · rw [cString_cons hb, List.length_cons, List.length_cons] at h
        obtain ⟨rest, hrest⟩ := ih (Nat.lt_of_succ_lt_succ h)
        refine ⟨rest, ?_⟩
        rw [cString_cons hb, List.cons_append, ← hrest]

/-! ## Buffers -/

namespace Block

variable {n : ℕ}

/-- Bytes are written at an offset; undefined where they leave the block. -/
def writeAt (memory : Block n) (offset : ℕ) (bytes : List UInt8) : Option (Block n) :=
  if h : offset + bytes.length ≤ n then
    some
      { bytes := overwrite memory.bytes offset bytes
        length_eq := by
          rw [overwrite, List.length_append, List.length_append, List.length_take,
            List.length_drop, memory.length_eq]
          omega }
  else none

/-- The string in a block; undefined if it does not end there. -/
def string (memory : Block n) : Option (List UInt8) :=
  let text := cString memory.bytes
  if text.length < n then some text else none

/-- `strlen` -/
def strlen (memory : Block n) : Option ℕ := memory.string.map List.length

/-- `strcpy` -/
def strcpy (memory : Block n) (text : List UInt8) : Option (Block n) :=
  memory.writeAt 0 (text ++ [0])

/-- `strcat` -/
def strcat (memory : Block n) (text : List UInt8) : Option (Block n) :=
  memory.strlen.bind fun length => memory.writeAt length (text ++ [0])

variable {memory : Block n} {text written bytes rest : List UInt8}

/-- Bytes that fit are written behind others. -/
theorem writeAt_append (hmemory : memory.bytes = written ++ rest)
    (hfits : written.length + bytes.length ≤ n) :
    ∃ memory', memory.writeAt written.length bytes = some memory' ∧
      memory'.bytes = written ++ bytes ++ rest.drop bytes.length := by
  refine ⟨_, dif_pos hfits, ?_⟩
  dsimp only
  rw [hmemory, overwrite_append]

theorem writeAt_eq_none {offset : ℕ} (hlarge : ¬ offset + bytes.length ≤ n) :
    memory.writeAt offset bytes = none := dif_neg hlarge

theorem string_eq_some (h : memory.string = some text) : 0 ∉ text ∧ text.length < n := by
  simp only [string] at h
  split_ifs at h with hlength
  obtain rfl := Option.some.inj h
  exact ⟨zero_not_mem_cString _, hlength⟩

/-- A terminated string. -/
theorem string_of_terminated (hmemory : memory.bytes = text ++ 0 :: rest) (htext : 0 ∉ text) :
    memory.string = some text := by
  have hcString : cString memory.bytes = text := by
    rw [hmemory, cString_append_zero, cString_of_not_mem htext]
  have hlength : text.length < n := by
    rw [← memory.length_eq, hmemory, List.length_append, List.length_cons]
    omega
  simp only [string, hcString, if_pos hlength]

theorem strlen_of_terminated (hmemory : memory.bytes = text ++ 0 :: rest) (htext : 0 ∉ text) :
    memory.strlen = some text.length := by
  rw [strlen, string_of_terminated hmemory htext, Option.map_some]

/-- `strcpy` of a string that fits. -/
theorem strcpy_of_fits (memory : Block n) (hfits : text.length < n) :
    ∃ memory', memory.strcpy text = some memory' ∧
      memory'.bytes = text ++ 0 :: memory.bytes.drop (text.length + 1) := by
  obtain ⟨memory', hwrite, hbytes⟩ := writeAt_append (List.nil_append memory.bytes).symm
    (show ([] : List UInt8).length + (text ++ [0]).length ≤ n by simpa using hfits)
  refine ⟨memory', hwrite, ?_⟩
  rw [hbytes, List.nil_append, List.append_assoc, List.length_append]
  rfl

/-- `strcat` to a terminated string writes inside the block exactly when both fit. -/
theorem strcat_of_fits {old : List UInt8} (hmemory : memory.bytes = old ++ 0 :: rest)
    (hold : 0 ∉ old) (hfits : old.length + text.length < n) :
    ∃ memory' rest', memory.strcat text = some memory' ∧
      memory'.bytes = old ++ text ++ 0 :: rest' := by
  obtain ⟨memory', hwrite, hbytes⟩ := writeAt_append hmemory
    (show old.length + (text ++ [0]).length ≤ n by
      rw [List.length_append, List.length_singleton]
      omega)
  refine ⟨memory', rest.drop text.length, ?_, ?_⟩
  · rw [strcat, strlen_of_terminated hmemory hold, Option.bind_some, hwrite]
  · rw [hbytes, List.length_append, List.length_singleton, List.drop_succ_cons]
    simp

theorem strcat_eq_none {old : List UInt8} (hmemory : memory.bytes = old ++ 0 :: rest)
    (hold : 0 ∉ old) (hlarge : ¬ old.length + text.length < n) : memory.strcat text = none := by
  rw [strcat, strlen_of_terminated hmemory hold, Option.bind_some]
  apply writeAt_eq_none
  rw [List.length_append, List.length_singleton]
  omega

end Block

/-! ## Lines -/

/-- The byte that ends a line. -/
def newline : UInt8 := 10

/-- One line with its end, at most the given number of bytes, and the rest. -/
def takeLine : ℕ → List UInt8 → List UInt8 × List UInt8
  | 0, file => ([], file)
  | _, [] => ([], [])
  | size + 1, b :: file =>
    if b = newline then ([b], file)
    else
      let (line, rest) := takeLine size file
      (b :: line, rest)

/-- `fgets` into a buffer of the given size, without the terminator that it appends: the
bytes and the rest of the file, or nothing at its end. -/
def fgets (size : ℕ) (file : List UInt8) : Option (List UInt8 × List UInt8) :=
  if file = [] then none else some (takeLine (size - 1) file)

theorem takeLine_append (size : ℕ) (file : List UInt8) :
    (takeLine size file).1 ++ (takeLine size file).2 = file := by
  fun_induction takeLine size file with
  | case1 => rfl
  | case2 => rfl
  | case3 => rfl
  | case4 size b file hb line rest heq ih =>
      rw [heq] at ih
      simpa using ih

theorem length_takeLine_le (size : ℕ) (file : List UInt8) :
    (takeLine size file).1.length ≤ size := by
  fun_induction takeLine size file with
  | case1 => exact le_rfl
  | case2 => exact Nat.zero_le _
  | case3 size file =>
      rw [List.length_singleton]
      exact Nat.le_add_left 1 size
  | case4 size b file hb line rest heq ih =>
      rw [heq] at ih
      exact Nat.succ_le_succ ih

theorem takeLine_ne_nil {size : ℕ} (hsize : 0 < size) {file : List UInt8} (hfile : file ≠ []) :
    (takeLine size file).1 ≠ [] := by
  cases size with
  | zero => cases hsize
  | succ size =>
      cases file with
      | nil => exact absurd rfl hfile
      | cons b file =>
          rw [takeLine]
          split_ifs <;> exact List.cons_ne_nil _ _

section Chunks

variable {size : ℕ} {file chunk rest : List UInt8}

/-- What one call of `fgets` returns. -/
theorem fgets_eq_some (h : fgets size file = some (chunk, rest)) :
    file ≠ [] ∧ takeLine (size - 1) file = (chunk, rest) := by
  rw [fgets] at h
  split_ifs at h with hfile
  exact ⟨hfile, Option.some.inj h⟩

theorem fgets_eq_none_iff : fgets size file = none ↔ file = [] := by
  rw [fgets]
  split_ifs with hfile
  · simp [hfile]
  · simp [hfile]

theorem append_of_fgets (h : fgets size file = some (chunk, rest)) : file = chunk ++ rest := by
  have happend := takeLine_append (size - 1) file
  rw [(fgets_eq_some h).2] at happend
  exact happend.symm

theorem length_chunk_lt (hsize : 0 < size) (h : fgets size file = some (chunk, rest)) :
    chunk.length < size := by
  have hle : chunk.length ≤ size - 1 := by
    simpa only [(fgets_eq_some h).2] using length_takeLine_le (size - 1) file
  omega

theorem length_rest_lt (hsize : 2 ≤ size) (h : fgets size file = some (chunk, rest)) :
    rest.length < file.length := by
  have hne : chunk ≠ [] := by
    simpa only [(fgets_eq_some h).2] using
      takeLine_ne_nil (by omega : 0 < size - 1) (fgets_eq_some h).1
  have hpos := List.length_pos_of_ne_nil hne
  rw [append_of_fgets h, List.length_append]
  omega

/-- The chunks of a file, with a bound on their number. -/
def chunksUpTo (size : ℕ) : ℕ → List UInt8 → List (List UInt8)
  | 0, _ => []
  | bound + 1, file =>
    match fgets size file with
    | none => []
    | some (chunk, rest) => chunk :: chunksUpTo size bound rest

/-- The pieces of a file that calls of `fgets` return. -/
def chunks (size : ℕ) (file : List UInt8) : List (List UInt8) :=
  chunksUpTo size file.length file

/-- **Induction over the chunks of a file.** -/
theorem chunks_induction {P : List UInt8 → Prop} (hsize : 2 ≤ size) (hnil : P [])
    (hchunk : ∀ file chunk rest, fgets size file = some (chunk, rest) → P rest → P file)
    (file : List UInt8) : P file := by
  induction hlength : file.length using Nat.strong_induction_on generalizing file with
  | _ n ih =>
      cases hgets : fgets size file with
      | none =>
          rw [fgets_eq_none_iff.mp hgets]
          exact hnil
      | some result =>
          have hlt := length_rest_lt hsize hgets
          exact hchunk file result.1 result.2 hgets (ih _ (hlength ▸ hlt) result.2 rfl)

theorem chunksUpTo_eq {bound bound' : ℕ} (hsize : 2 ≤ size) (hbound : file.length ≤ bound)
    (hbound' : file.length ≤ bound') :
    chunksUpTo size bound file = chunksUpTo size bound' file := by
  induction bound generalizing file bound' with
  | zero =>
      rw [List.length_eq_zero_iff.mp (Nat.le_zero.mp hbound)]
      cases bound' <;> rfl
  | succ bound ih =>
      cases hgets : fgets size file with
      | none =>
          rw [fgets_eq_none_iff.mp hgets]
          cases bound' <;> rfl
      | some result =>
          have hlt := length_rest_lt hsize hgets
          cases bound' with
          | zero => omega
          | succ bound' =>
              rw [chunksUpTo, chunksUpTo, hgets]
              exact congrArg (result.1 :: ·) (ih (by omega) (by omega))

@[simp]
theorem chunks_nil (size : ℕ) : chunks size [] = [] := rfl

/-- The chunk that is read next, and those of the rest. -/
theorem chunks_of_fgets (hsize : 2 ≤ size) (h : fgets size file = some (chunk, rest)) :
    chunks size file = chunk :: chunks size rest := by
  have hlt := length_rest_lt hsize h
  obtain ⟨length, hlength⟩ : ∃ length, file.length = length + 1 :=
    Nat.exists_eq_add_one.mpr (by omega)
  rw [chunks, hlength, chunksUpTo, h]
  exact congrArg (chunk :: ·) (chunksUpTo_eq hsize (by omega) le_rfl)

end Chunks

/-! ## Fields -/

/-- One call of `strtok`, with the text that the next call continues with: separators in
front of a field are skipped. -/
def strtok (separator : UInt8) (text : List UInt8) : Option (List UInt8 × List UInt8) :=
  let field := text.dropWhile (· = separator)
  if field = [] then none
  else some (field.takeWhile (· ≠ separator), (field.dropWhile (· ≠ separator)).drop 1)

/-- The fields of a text, with a bound on their number. -/
def fieldsUpTo (separator : UInt8) : ℕ → List UInt8 → List (List UInt8)
  | 0, _ => []
  | bound + 1, text =>
    match strtok separator text with
    | none => []
    | some (field, rest) => field :: fieldsUpTo separator bound rest

/-- What calls of `strtok` return, one after the other. -/
def fields (separator : UInt8) (text : List UInt8) : List (List UInt8) :=
  fieldsUpTo separator text.length text

section Fields

variable {separator : UInt8} {field rest : List UInt8}

theorem dropWhile_of_field (hfield : separator ∉ field) (hne : field ≠ []) (rest : List UInt8) :
    (field ++ rest).dropWhile (· = separator) = field ++ rest := by
  cases field with
  | nil => exact absurd rfl hne
  | cons b field =>
      have hb : b ≠ separator := fun heq => hfield (heq ▸ List.mem_cons_self)
      simp [hb]

/-- A field that is followed by a separator. -/
theorem strtok_append (hfield : separator ∉ field) (hne : field ≠ []) (rest : List UInt8) :
    strtok separator (field ++ separator :: rest) = some (field, rest) := by
  have hall : ∀ b ∈ field, decide (b ≠ separator) = true := by
    intro b hb
    exact decide_eq_true (ne_of_mem_of_not_mem hb hfield)
  rw [strtok, dropWhile_of_field hfield hne, if_neg (List.append_ne_nil_of_left_ne_nil hne _),
    List.takeWhile_append_of_pos hall, List.dropWhile_append_of_pos hall]
  simp

/-- The last field. -/
theorem strtok_last (hfield : separator ∉ field) (hne : field ≠ []) :
    strtok separator field = some (field, []) := by
  have hall : ∀ b ∈ field, decide (b ≠ separator) = true := by
    intro b hb
    exact decide_eq_true (ne_of_mem_of_not_mem hb hfield)
  have hdrop := dropWhile_of_field hfield hne []
  rw [List.append_nil] at hdrop
  rw [strtok, hdrop, if_neg hne, List.takeWhile_eq_self_iff.mpr hall,
    List.dropWhile_eq_nil_iff.mpr hall]
  rfl

/-- Fields without separators are returned as they are, when the bound is large enough. -/
theorem fieldsUpTo_intercalate {parts : List (List UInt8)}
    (hparts : ∀ part ∈ parts, separator ∉ part ∧ part ≠ []) {bound : ℕ}
    (hbound : parts.length ≤ bound) :
    fieldsUpTo separator bound ([separator].intercalate parts) = parts := by
  induction parts generalizing bound with
  | nil => cases bound <;> rfl
  | cons part rest ih =>
      rw [List.forall_mem_cons] at hparts
      cases bound with
      | zero => exact absurd hbound (Nat.not_succ_le_zero _)
      | succ bound =>
          have hbound' := Nat.le_of_succ_le_succ hbound
          cases rest with
          | nil =>
              rw [List.intercalate_singleton, fieldsUpTo,
                strtok_last hparts.1.1 hparts.1.2]
              cases bound <;> rfl
          | cons next rest =>
              rw [List.intercalate_cons_cons, List.append_assoc, List.singleton_append,
                fieldsUpTo, strtok_append hparts.1.1 hparts.1.2]
              exact congrArg (part :: ·) (ih hparts.2 hbound')

theorem length_le_length_intercalate {parts : List (List UInt8)}
    (hparts : ∀ part ∈ parts, part ≠ []) :
    parts.length ≤ ([separator].intercalate parts).length := by
  induction parts with
  | nil => exact Nat.zero_le _
  | cons part rest ih =>
      rw [List.forall_mem_cons] at hparts
      have hpart := List.length_pos_of_ne_nil hparts.1
      cases rest with
      | nil =>
          rw [List.intercalate_singleton]
          exact hpart
      | cons next rest =>
          have hrest := ih hparts.2
          rw [List.intercalate_cons_cons, List.length_append, List.length_append]
          simp only [List.length_cons, List.length_nil] at hrest ⊢
          omega

/-- A text that has been joined is taken apart again. -/
theorem fields_intercalate {parts : List (List UInt8)}
    (hparts : ∀ part ∈ parts, separator ∉ part ∧ part ≠ []) :
    fields separator ([separator].intercalate parts) = parts :=
  fieldsUpTo_intercalate hparts
    (length_le_length_intercalate fun part hpart => (hparts part hpart).2)

end Fields

/-! ## Numbers -/

def isSpace (b : UInt8) : Bool := b = 32 ∨ 9 ≤ b ∧ b ≤ 13

def isDigit (b : UInt8) : Bool := 48 ≤ b ∧ b ≤ 57

/-- The value of decimal digits. -/
def decimal (digits : List UInt8) : ℕ :=
  digits.foldl (fun value b => 10 * value + (b.toNat - 48)) 0

/-- `atoi`: white space, a sign and digits. A value that is not an `int` is undefined. -/
def atoi (text : List UInt8) : Option ℤ :=
  let text := text.dropWhile isSpace
  let value : ℤ :=
    match text with
    | 45 :: rest => -(decimal (rest.takeWhile isDigit) : ℤ)
    | 43 :: rest => decimal (rest.takeWhile isDigit)
    | _ => decimal (text.takeWhile isDigit)
  if -2 ^ 31 ≤ value ∧ value < 2 ^ 31 then some value else none

/-- A decimal number without a sign. -/
def IsNumeral (text : List UInt8) : Prop := text ≠ [] ∧ ∀ b ∈ text, isDigit b = true

instance (text : List UInt8) : Decidable (IsNumeral text) :=
  @instDecidableAnd _ _ inferInstance (List.decidableBAll _ text)

theorem IsNumeral.not_mem {text : List UInt8} (h : IsNumeral text) {b : UInt8}
    (hb : isDigit b = false) : b ∉ text := by
  intro hmem
  rw [h.2 b hmem] at hb
  cases hb

theorem isSpace_of_isDigit {b : UInt8} (hb : isDigit b = true) : isSpace b = false := by
  simp only [isDigit, isSpace, decide_eq_true_eq, decide_eq_false_iff_not, UInt8.le_iff_toNat_le,
    ← UInt8.toNat_inj, UInt8.reduceToNat] at hb ⊢
  omega

/-- The value of a numeral, if it is an `int`. -/
theorem IsNumeral.atoi_eq {text : List UInt8} (h : IsNumeral text) :
    atoi text = if decimal text < 2 ^ 31 then some (decimal text : ℤ) else none := by
  obtain ⟨hne, hdigits⟩ := h
  obtain ⟨b, rest, rfl⟩ := List.exists_cons_of_ne_nil hne
  have hb : isDigit b = true := hdigits b List.mem_cons_self
  have hspace : (b :: rest).dropWhile isSpace = b :: rest := by
    rw [List.dropWhile_cons_of_neg]
    rw [isSpace_of_isDigit hb]
    exact Bool.false_ne_true
  have htake : (b :: rest).takeWhile isDigit = b :: rest :=
    List.takeWhile_eq_self_iff.mpr hdigits
  have hminus : b ≠ 45 := by
    rintro rfl
    exact absurd hb (by decide)
  have hplus : b ≠ 43 := by
    rintro rfl
    exact absurd hb (by decide)
  have hcast : (-2 ^ 31 ≤ (decimal (b :: rest) : ℤ) ∧ (decimal (b :: rest) : ℤ) < 2 ^ 31) ↔
      decimal (b :: rest) < 2 ^ 31 := by
    omega
  rw [atoi, hspace]
  split
  · rename_i heq
    exact absurd (List.cons.inj heq).1 hminus
  · rename_i heq
    exact absurd (List.cons.inj heq).1 hplus
  · rw [htake, if_congr hcast rfl rfl]

end AFStream.Foundation
