/-
# Keys of the configuration file

All settings of a worker are read from one section of an INI file. The constructor of
`Config` keeps the name of the section with a colon behind it, and every access puts the
key behind that in a static buffer. The memory for the name is not initialised, and the
terminator is written where `strlen` finds the end after the old one has been
overwritten. The module finds exactly when all keys come out right.
-/

import AFStream.Foundation.CText

namespace AFStream.ConfigFile

open AFStream.Foundation

/-- `MAX_LINE_SIZE` -/
def maxLineSize : ℕ := 1024

/-- The byte between a section and a key. -/
def colon : UInt8 := 58

/-- `strconcat`, with its static buffer. A missing string is `NULL`; the result is the string
in the buffer. -/
def strconcat (l : Block (maxLineSize + 1)) :
    Option (List UInt8) → Option (List UInt8) →
      Option (Option (List UInt8) × Block (maxLineSize + 1))
  | none, b => some (b, l)
  | some _, none => some (none, l)
  | some a, some b => do
    let l ← l.strcpy a
    let l ← l.strcat b
    return (some (cString l.bytes), l)

/-- `Config`. The dictionary belongs to the parser library. -/
structure Config (D : Type) where
  dict : Option D
  sectionName : Block maxLineSize

/-- What the constructor prints when it gives up. -/
inductive ConfigError
  | noFile
  | notLoaded
  | nameTooLong
  deriving DecidableEq

def ConfigError.message : ConfigError → String
  | noFile => "didn't specify configuration file\n"
  | notLoaded => "error: iniparser_load()\n"
  | nameTooLong => "error: section name is too long\n"

namespace Config

variable {D R : Type}

/-- The lines that put a colon behind the name. -/
def appendColon (sectionName : Block maxLineSize) : Option (Block maxLineSize) := do
  let length ← sectionName.strlen
  let sectionName ← sectionName.writeAt length [colon]
  let length ← sectionName.strlen
  sectionName.writeAt (length + 1) [0]

/-- The constructor, in memory that has not been initialised. It is undefined where it
leaves `section_name_`. -/
def create (iniparserLoad : List UInt8 → Option D) (memory : Config D)
    (ininame : Option (List UInt8)) (sectionName : List UInt8) :
    Option (Config D × Option ConfigError) :=
  match ininame with
  | none => some (memory, some .noFile)
  | some ininame =>
    match iniparserLoad ininame with
    | none => some ({ memory with dict := none }, some .notLoaded)
    | some dict =>
      let config := { memory with dict := some dict }
      if sectionName.length + 2 > maxLineSize then some (config, some .nameTooLong)
      else do
        let copied ← config.sectionName.strcpy sectionName
        let sectionName ← appendColon copied
        return ({ config with sectionName := sectionName }, none)

/-- `getstring`, `getint`, `getdouble` and `getboolean`, each with its function of the parser
library; `get_ull` converts what `getstring` returns. -/
def get (iniparserGet : Option D → Option (List UInt8) → R → R) (l : Block (maxLineSize + 1))
    (config : Config D) (key : Option (List UInt8)) (notfound : R) :
    Option (R × Block (maxLineSize + 1)) := do
  let sectionName ← config.sectionName.string
  let (full, l) ← strconcat l (some sectionName) key
  return (iniparserGet config.dict full notfound, l)

/-- The keys that the parser library is asked for, one access after the other. -/
def lookups (config : Config D) : Block (maxLineSize + 1) → List (List UInt8) →
    Option (List (List UInt8))
  | _, [] => some []
  | l, key :: keys => do
    let (full, l) ← config.get (fun _ full _ => full) l (some key) none
    let rest ← config.lookups l keys
    return full.toList ++ rest

/-- The full key of a setting. -/
def fullKey (name key : List UInt8) : List UInt8 := name ++ colon :: key

/-! ## The section name -/

theorem colon_ne_zero : colon ≠ 0 := by decide

theorem zero_not_mem_fullKey {name key : List UInt8} (hname : 0 ∉ name) (hkey : 0 ∉ key) :
    0 ∉ fullKey name key := by
  simp [fullKey, hname, hkey, colon_ne_zero.symm]

theorem length_fullKey (name key : List UInt8) :
    (fullKey name key).length = name.length + key.length + 1 := by
  rw [fullKey, List.length_append, List.length_cons]
  omega

section AppendColon

variable {copied : Block maxLineSize} {name old : List UInt8}

/-- The colon takes the place of the terminator. -/
theorem appendColon_eq (hcopied : copied.bytes = name ++ 0 :: old) (hname : 0 ∉ name) :
    ∃ marked : Block maxLineSize, marked.bytes = name ++ colon :: old ∧
      appendColon copied = marked.strlen.bind fun length => marked.writeAt (length + 1) [0] := by
  have hlength := copied.length_eq
  rw [hcopied, List.length_append, List.length_cons] at hlength
  have hcolon : name.length + [colon].length ≤ maxLineSize := by
    rw [List.length_singleton]
    omega
  obtain ⟨marked, hmark, hmarked⟩ := Block.writeAt_append hcopied hcolon
  refine ⟨marked, ?_, ?_⟩
  · rw [hmarked, List.append_assoc]
    rfl
  · rw [appendColon, Block.strlen_of_terminated hcopied hname, Option.bind_eq_bind,
      Option.bind_some, hmark]
    rfl

/-- What stood behind the name becomes a part of it, up to the next zero byte. -/
theorem appendColon_of_room (hcopied : copied.bytes = name ++ 0 :: old) (hname : 0 ∉ name)
    (hroom : name.length + (cString old).length + 2 < maxLineSize) :
    ∃ sectionName, appendColon copied = some sectionName ∧
      sectionName.string = some (fullKey name (cString old)) := by
  obtain ⟨marked, hmarked, heq⟩ := appendColon_eq hcopied hname
  have hlength := marked.length_eq
  rw [hmarked, List.length_append, List.length_cons] at hlength
  obtain ⟨rest, hold⟩ := exists_terminator (show (cString old).length < old.length by omega)
  have hkey := zero_not_mem_fullKey hname (zero_not_mem_cString old)
  have hterminated : marked.bytes = fullKey name (cString old) ++ 0 :: rest := by
    rw [hmarked, fullKey, List.append_assoc, List.cons_append, ← hold]
  have hend : (fullKey name (cString old) ++ [0]).length + [(0 : UInt8)].length ≤ maxLineSize := by
    simp only [List.length_append, length_fullKey, List.length_singleton]
    omega
  obtain ⟨sectionName, hwrite, hbytes⟩ := Block.writeAt_append
    (show marked.bytes = (fullKey name (cString old) ++ [0]) ++ rest by
      rw [hterminated, List.append_assoc, List.singleton_append]) hend
  rw [List.length_append, List.length_singleton] at hwrite
  refine ⟨sectionName, ?_, ?_⟩
  · rw [heq, Block.strlen_of_terminated hterminated hkey, Option.bind_some, hwrite]
  · rw [List.append_assoc, List.append_assoc, List.singleton_append] at hbytes
    exact Block.string_of_terminated hbytes hkey

/-- If that leaves no room for two zero bytes, the terminator is written behind the memory. -/
theorem appendColon_eq_none (hcopied : copied.bytes = name ++ 0 :: old) (hname : 0 ∉ name)
    (hlarge : ¬ name.length + (cString old).length + 2 < maxLineSize) :
    appendColon copied = none := by
  obtain ⟨marked, hmarked, heq⟩ := appendColon_eq hcopied hname
  have hstring : cString marked.bytes = fullKey name (cString old) := by
    rw [hmarked, cString_append hname, cString_cons colon_ne_zero, fullKey]
  simp only [heq, Block.strlen, Block.string, hstring]
  split_ifs with hinside
  · apply Block.writeAt_eq_none
    rw [length_fullKey, List.length_singleton]
    omega
  · rfl

end AppendColon

variable {iniparserLoad : List UInt8 → Option D} {ininame : List UInt8} {dict : D}

/-- The constructor for a name that passes the check. -/
theorem create_eq (hload : iniparserLoad ininame = some dict) (memory : Config D)
    {name : List UInt8} (hcheck : name.length + 2 ≤ maxLineSize) :
    ∃ copied : Block maxLineSize,
      copied.bytes = name ++ 0 :: memory.sectionName.bytes.drop (name.length + 1) ∧
      create iniparserLoad memory (some ininame) name =
        (appendColon copied).map fun sectionName =>
          (⟨some dict, sectionName⟩, none) := by
  have hfits : name.length < maxLineSize := by omega
  obtain ⟨copied, hcopy, hbytes⟩ := memory.sectionName.strcpy_of_fits hfits
  refine ⟨copied, hbytes, ?_⟩
  simp only [create, hload, if_neg (Nat.not_lt.mpr hcheck), hcopy, Option.bind_eq_bind,
    Option.bind_some, Option.map_eq_bind]
  rfl

/-! ## Accesses -/

/-- `strconcat` writes inside the static buffer exactly when both strings fit. -/
theorem strconcat_eq (l : Block (maxLineSize + 1)) {a b : List UInt8} (ha : 0 ∉ a)
    (hlength : a.length ≤ maxLineSize) (hb : 0 ∉ b) :
    (a.length + b.length ≤ maxLineSize →
      ∃ l', strconcat l (some a) (some b) = some (some (a ++ b), l')) ∧
    (¬ a.length + b.length ≤ maxLineSize → strconcat l (some a) (some b) = none) := by
  obtain ⟨copied, hcopy, hcopied⟩ := l.strcpy_of_fits (Nat.lt_succ_of_le hlength)
  constructor
  · intro hfits
    obtain ⟨l', rest, hcat, hbytes⟩ :=
      Block.strcat_of_fits hcopied ha (Nat.lt_succ_of_le hfits)
    have hboth : 0 ∉ a ++ b := by
      simp [ha, hb]
    refine ⟨l', ?_⟩
    simp only [strconcat, hcopy, hcat, Option.bind_eq_bind, Option.bind_some, hbytes,
      cString_append_zero, cString_of_not_mem hboth]
    rfl
  · intro hlarge
    have hlarge' : ¬ a.length + b.length < maxLineSize + 1 := by omega
    have hcat := Block.strcat_eq_none hcopied ha hlarge'
    simp only [strconcat, hcopy, hcat, Option.bind_eq_bind, Option.bind_some, Option.bind_none]

section Lookups

variable {config : Config D} {sectionName : List UInt8}

/-- One access asks the parser library for the full key, if it fits. -/
theorem get_eq (hsection : config.sectionName.string = some sectionName)
    (iniparserGet : Option D → Option (List UInt8) → R → R) (l : Block (maxLineSize + 1))
    {key : List UInt8} (hkey : 0 ∉ key) (notfound : R) :
    (sectionName.length + key.length ≤ maxLineSize →
      ∃ l', config.get iniparserGet l (some key) notfound =
        some (iniparserGet config.dict (some (sectionName ++ key)) notfound, l')) ∧
    (¬ sectionName.length + key.length ≤ maxLineSize →
      config.get iniparserGet l (some key) notfound = none) := by
  obtain ⟨hzero, hlength⟩ := Block.string_eq_some hsection
  obtain ⟨hfits, hlarge⟩ := strconcat_eq l hzero hlength.le hkey
  simp only [get, hsection, Option.bind_eq_bind, Option.bind_some]
  constructor
  · intro hroom
    obtain ⟨l', hconcat⟩ := hfits hroom
    rw [hconcat]
    exact ⟨l', rfl⟩
  · intro hroom
    rw [hlarge hroom]
    rfl

/-- All accesses write inside the static buffer exactly when all full keys fit. -/
theorem lookups_eq (hsection : config.sectionName.string = some sectionName)
    (l : Block (maxLineSize + 1)) {keys : List (List UInt8)} (hkeys : ∀ key ∈ keys, 0 ∉ key) :
    config.lookups l keys =
      if ∀ key ∈ keys, sectionName.length + key.length ≤ maxLineSize then
        some (keys.map (sectionName ++ ·))
      else none := by
  induction keys generalizing l with
  | nil => rfl
  | cons key keys ih =>
      rw [List.forall_mem_cons] at hkeys
      obtain ⟨hfits, hlarge⟩ := config.get_eq hsection (fun _ full _ => full) l hkeys.1 none
      simp only [lookups, List.forall_mem_cons]
      by_cases hkey : sectionName.length + key.length ≤ maxLineSize
      · obtain ⟨l', hget⟩ := hfits hkey
        simp only [hget, Option.bind_eq_bind, Option.bind_some, ih l' hkeys.2, hkey, true_and]
        split_ifs <;> rfl
      · rw [hlarge hkey, if_neg fun h => hkey h.1]
        rfl

end Lookups

/-! ## All keys of a section -/

/-- The constructor stays inside its memory and leaves the name with a colon there; all
accesses stay inside the static buffer and ask for the full keys. -/
def FormsKeys (iniparserLoad : List UInt8 → Option D) (memory : Config D)
    (l : Block (maxLineSize + 1)) (ininame name : List UInt8) (keys : List (List UInt8)) : Prop :=
  ∃ config, create iniparserLoad memory (some ininame) name = some (config, none) ∧
    config.sectionName.string = some (name ++ [colon]) ∧
    config.lookups l keys = some (keys.map (fullKey name))

/-- The byte behind the place of the colon is zero already, there is room for one more, and
the full keys fit into the static buffer. -/
structure KeysFit (memory : Config D) (name : List UInt8) (keys : List (List UInt8)) : Prop where
  zero_behind : memory.sectionName.bytes[name.length + 1]? = some 0
  room : name.length + 2 < maxLineSize
  fits : ∀ key ∈ keys, name.length + 1 + key.length ≤ maxLineSize

section Keys

variable {memory : Config D} {l : Block (maxLineSize + 1)} {name : List UInt8}
  {keys : List (List UInt8)}

/-- Only a zero byte ends a string at once. -/
theorem cString_drop_eq_nil_iff {bytes : List UInt8} {i : ℕ} (hi : i < bytes.length) :
    cString (bytes.drop i) = [] ↔ bytes[i]? = some 0 := by
  rw [List.drop_eq_getElem_cons hi, List.getElem?_eq_getElem hi, Option.some.injEq]
  by_cases hzero : bytes[i] = 0
  · simp [hzero]
  · rw [cString_cons hzero]
    simp [hzero]

theorem map_fullKey (name : List UInt8) (keys : List (List UInt8)) :
    keys.map ((name ++ [colon]) ++ ·) = keys.map (fullKey name) := by
  apply List.map_congr_left
  intro key _
  rw [fullKey, List.append_assoc, List.singleton_append]

theorem formsKeys_of_fit (hload : iniparserLoad ininame = some dict) (hname : 0 ∉ name)
    (hcheck : name.length + 2 ≤ maxLineSize) (hkeys : ∀ key ∈ keys, 0 ∉ key)
    (hfit : KeysFit memory name keys) : FormsKeys iniparserLoad memory l ininame name keys := by
  obtain ⟨copied, hcopied, hcreate⟩ := create_eq hload memory hcheck
  have hlength := memory.sectionName.length_eq
  have hold := (cString_drop_eq_nil_iff (by omega)).mpr hfit.zero_behind
  have hroom := hfit.room
  obtain ⟨sectionName, happend, hstring⟩ := appendColon_of_room hcopied hname
    (by rw [hold, List.length_nil]; exact hroom)
  rw [hold, fullKey] at hstring
  refine ⟨⟨some dict, sectionName⟩, ?_, hstring, ?_⟩
  · rw [hcreate, happend, Option.map_some]
  · rw [lookups_eq hstring l hkeys, if_pos, map_fullKey]
    intro key hkey
    rw [List.length_append, List.length_singleton]
    exact hfit.fits key hkey

theorem FormsKeys.fit (h : FormsKeys iniparserLoad memory l ininame name keys)
    (hload : iniparserLoad ininame = some dict) (hname : 0 ∉ name)
    (hcheck : name.length + 2 ≤ maxLineSize) (hkeys : ∀ key ∈ keys, 0 ∉ key) :
    KeysFit memory name keys := by
  obtain ⟨config, hconfig, hsection, hlookups⟩ := h
  obtain ⟨copied, hcopied, hcreate⟩ := create_eq hload memory hcheck
  have hlength := memory.sectionName.length_eq
  by_cases hroom : name.length +
      (cString (memory.sectionName.bytes.drop (name.length + 1))).length + 2 < maxLineSize
  · obtain ⟨sectionName, happend, hstring⟩ := appendColon_of_room hcopied hname hroom
    rw [hcreate, happend, Option.map_some, Option.some.injEq, Prod.mk.injEq] at hconfig
    obtain ⟨rfl, -⟩ := hconfig
    have hsame := Option.some.inj (hstring.symm.trans hsection)
    rw [fullKey, List.append_cancel_left_eq, List.cons.injEq] at hsame
    refine ⟨(cString_drop_eq_nil_iff (by omega)).mp hsame.2, by omega, ?_⟩
    rw [lookups_eq hsection l hkeys] at hlookups
    split_ifs at hlookups with hfits
    simpa [Nat.add_assoc] using hfits
  · rw [hcreate, appendColon_eq_none hcopied hname hroom] at hconfig
    cases hconfig

/-- **Configuration keys.** For every section name that passes the check of the constructor,
everything that its memory and the static buffer held before, and every sequence of
accesses: the section and all keys come out right exactly when the byte behind the place of
the colon was zero, the name is one byte shorter than the check allows, and all full keys fit
into the static buffer. -/
theorem keys_formed_iff (hload : iniparserLoad ininame = some dict) (memory : Config D)
    (l : Block (maxLineSize + 1)) (name : List UInt8) (hname : 0 ∉ name)
    (hcheck : name.length + 2 ≤ maxLineSize) (keys : List (List UInt8))
    (hkeys : ∀ key ∈ keys, 0 ∉ key) :
    FormsKeys iniparserLoad memory l ininame name keys ↔ KeysFit memory name keys :=
  ⟨fun h => h.fit hload hname hcheck hkeys, formsKeys_of_fit hload hname hcheck hkeys⟩

/-- In memory that is zero: a key of the section `sys`. -/
theorem keys_formed_iff_zero_memory :
    FormsKeys (fun _ => some ()) ⟨none, .zero⟩ .zero [] [115, 121, 115] [[105, 100]] := by
  have hload : (fun _ : List UInt8 => some ()) [] = some () := rfl
  refine (keys_formed_iff hload _ _ _ (by decide) (by decide) _ (by decide)).mpr ?_
  exact ⟨List.getElem?_replicate_of_lt (by decide), by decide, by decide⟩

/-- Memory that holds an `x` where the terminator of the section `a` is expected. -/
def staleMemory : Config Unit where
  dict := none
  sectionName :=
    { bytes := 0 :: 0 :: 120 :: List.replicate 1021 0
      length_eq := by
        rw [List.length_cons, List.length_cons, List.length_cons, List.length_replicate]
        rfl }

/-- The section `a` becomes `a:x`; a name at the limit of the check puts its terminator behind
the memory, and a long key leaves the static buffer. -/
theorem keys_not_formed :
    (¬ FormsKeys (fun _ => some ()) staleMemory .zero [] [97] [] ∧
      ∃ config, create (fun _ => some ()) staleMemory (some []) [97] = some (config, none) ∧
        config.sectionName.string = some [97, colon, 120]) ∧
    ¬ FormsKeys (fun _ => some ()) ⟨none, .zero⟩ .zero [] (List.replicate 1022 97) [] ∧
    ¬ FormsKeys (fun _ => some ()) ⟨none, .zero⟩ .zero [] [97] [List.replicate 1023 98] := by
  have hload : (fun _ : List UInt8 => some ()) [] = some () := rfl
  refine ⟨⟨?_, ?_⟩, ?_, ?_⟩
  · intro h
    have hbyte := (h.fit hload (by decide) (by decide) (by decide)).zero_behind
    exact absurd (Option.some.inj hbyte) (by decide)
  · obtain ⟨copied, hcopied, hcreate⟩ :=
      @create_eq Unit (fun _ => some ()) [] () hload staleMemory [97] (by decide)
    have hold :
        cString (staleMemory.sectionName.bytes.drop ([(97 : UInt8)].length + 1)) = [120] := by
      change cString (120 :: List.replicate 1021 0) = [120]
      rw [cString_cons (by decide), List.replicate_succ, cString_zero]
    obtain ⟨sectionName, happend, hstring⟩ := appendColon_of_room hcopied (by decide)
      (by rw [hold]; decide)
    refine ⟨⟨some (), sectionName⟩, ?_, ?_⟩
    · rw [hcreate, happend, Option.map_some]
    · rw [hstring, hold]
      rfl
  · intro h
    have hname : (0 : UInt8) ∉ List.replicate 1022 97 := by
      intro hmem
      exact absurd (List.eq_of_mem_replicate hmem) (by decide)
    have hroom := (h.fit hload hname (by rw [List.length_replicate]; decide) (by decide)).room
    rw [List.length_replicate] at hroom
    exact absurd hroom (by decide)
  · intro h
    have hkey : (0 : UInt8) ∉ List.replicate 1023 98 := by
      intro hmem
      exact absurd (List.eq_of_mem_replicate hmem) (by decide)
    have hfits := (h.fit hload (by decide) (by decide)
      (by intro key hmem; rwa [List.mem_singleton.mp hmem])).fits _ List.mem_cons_self
    rw [List.length_replicate] at hfits
    exact absurd hfits (by decide)

end Keys

end Config

end AFStream.ConfigFile
