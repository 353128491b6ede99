import Mathlib.Data.List.DropRight
import QudoPqc.Integrity.Checksum

/-!
# The configuration file of the installer

`write_config` of `qudo_fipsinstall.c` prints a section header and a few entries, and
`read_config_value` finds the value of a key in a section. Between them stands the text of a file:
the reader cuts it into lines with `fgets`, compares headers, splits an entry at its first `=` and
trims blanks. The section name and the two paths are arbitrary strings of the user.

## Why the text is unambiguous

A string without line ends cannot leave its line, and every line on which one stands begins with
text of the installer: `[` or the name of a key and ` = `. The names contain neither `=` nor blanks,
so the first `=` is the installer's, and a path cannot pretend to be another key. The limits on
lengths are those of the buffers of the reader.

A string is the list of its bytes without the terminating zero.
-/

namespace QudoPqc

namespace Integrity

/-- The bytes of a text of the source. -/
def ascii (s : String) : Bytes := s.toList.map fun c ↦ UInt8.ofNat c.toNat

/-! ## Writing -/

/-- `fprintf(fp, "name = %s\n", value)`. -/
def entryLine (name value : Bytes) : Bytes := name ++ ascii " = " ++ value ++ [0x0a]

/-- `fprintf(fp, "[%s]\n", section)`. -/
def headerLine (sect : Bytes) : Bytes := [0x5b] ++ sect ++ [0x5d] ++ [0x0a]

/-- The entries that `write_config` prints for a library. -/
def libraryLines : Option (Bytes × Bytes) → Bytes
  | none => []
  | some (path, mac) =>
    entryLine (ascii "library-mac") (fipsBuf2hexstr mac) ++ entryLine (ascii "library-path") path

/-- The text that `write_config` prints; `library` is the path of the library and its MAC. -/
def writeConfig (sect moduleMac modulePath : Bytes) (library : Option (Bytes × Bytes)) : Bytes :=
  headerLine sect ++
    entryLine (ascii "activate") (ascii "1") ++
    entryLine (ascii "conditional-errors") (ascii "1") ++
    entryLine (ascii "module") modulePath ++
    entryLine (ascii "module-mac") (fipsBuf2hexstr moduleMac) ++ libraryLines library

/-! ## Reading -/

/-- The size of the buffer `line`. -/
def lineSize : ℕ := 4096

/-- What the calls of `fgets` return for the rest of a file, when `line` has been read of the
current one: a line ends after its newline, or when the buffer is full. -/
def fgetsLines : (line file : Bytes) → List Bytes
  | line, [] => if line = [] then [] else [line]
  | line, c :: file =>
    if c = 0x0a ∨ (line ++ [c]).length = lineSize - 1 then (line ++ [c]) :: fgetsLines [] file
    else fgetsLines (line ++ [c]) file

/-- A line up to its first zero byte, without the carriage returns and newlines at its end. -/
def chomp (line : Bytes) : Bytes :=
  (line.takeWhile (· ≠ 0)).rdropWhile fun c ↦ c = 0x0a ∨ c = 0x0d

/-- A space or a tab. -/
def isBlank (c : UInt8) : Bool := c = 0x20 ∨ c = 0x09

/-- The key in the part of a line before `=`. The loop from the end does not look at the first
character that is not a blank. -/
def trimKey (text : Bytes) : Bytes :=
  match text.dropWhile isBlank with
  | [] => []
  | c :: rest => c :: rest.rdropWhile isBlank

/-- The two parts of a line with a `=`. -/
def splitEq (line : Bytes) : Option (Bytes × Bytes) :=
  if 0x3d ∈ line then some (line.takeWhile (· ≠ 0x3d), (line.dropWhile (· ≠ 0x3d)).tail) else none

/-- The loop of `read_config_value`. -/
def findValue (header key : Bytes) : (lines : List Bytes) → (inSection : Bool) → Option Bytes
  | [], _ => none
  | raw :: lines, inSection =>
    let line := chomp raw
    if line.head? = some 0x5b then findValue header key lines (line = header)
    else if !inSection then findValue header key lines inSection
    else
      match splitEq line with
      | none => findValue header key lines inSection
      | some (k, v) =>
        if trimKey k ≠ key then findValue header key lines inSection
        else some (v.dropWhile isBlank)

/-- The size of the buffer `section_header`. -/
def headerSize : ℕ := 256

/-- `read_config_value` on the text of the file, or on no file if it cannot be opened. -/
def readConfigValue (file : Option Bytes) (sect key : Bytes) : Option Bytes :=
  file.bind fun text ↦
    findValue (([0x5b] ++ sect ++ [0x5d]).take (headerSize - 1)) key (fgetsLines [] text) false

/-! ## Verifying -/

variable {sha : Sha256}

/-- The mode of `main` that writes a configuration file. -/
def generateConfig (stack : HmacCtx sha) (out : Bytes) (fopen : Bytes → Option Stream)
    (sect modulePath : Bytes) (libraryPath : Option Bytes) : Option Bytes :=
  (computeFileHmac stack out (fopen modulePath)).bind fun moduleMac ↦
    match libraryPath with
    | none => some (writeConfig sect moduleMac modulePath none)
    | some path => (computeFileHmac stack out (fopen path)).map fun libraryMac ↦
      writeConfig sect moduleMac modulePath (some (path, libraryMac))

/-- The comparison of a MAC with its value in the configuration file. -/
def macMatches (hex mac : Bytes) : Bool :=
  match fipsHexstr2buf true hex with
  | none => false
  | some (expected, len) => len = mac.length ∧ expected.take mac.length = mac

/-- `do_verify`. The file system maps a path to what can be read from it. -/
def doVerify (stack : HmacCtx sha) (out : Bytes) (fopen : Bytes → Option Stream)
    (modulePath : Bytes) (libraryPath : Option Bytes) (config : Option Bytes) (sect : Bytes) :
    Bool :=
  match readConfigValue config sect (ascii "module-mac") with
  | none => false
  | some moduleHex =>
    match computeFileHmac stack out (fopen modulePath) with
    | none => false
    | some moduleMac =>
      if !macMatches moduleHex moduleMac then false
      else
        match readConfigValue config sect (ascii "library-mac"), libraryPath with
        | none, _ => true
        | some _, none => false
        | some libraryHex, some path =>
          match computeFileHmac stack out (fopen path) with
          | none => false
          | some libraryMac => macMatches libraryHex libraryMac

/-! ## Lines -/

/-- A string without zeros and line ends. -/
def Plain (s : Bytes) : Prop := ∀ c ∈ s, c ≠ 0 ∧ c ≠ 0x0a ∧ c ≠ 0x0d

instance (s : Bytes) : Decidable (Plain s) := List.decidableBAll _ s

theorem plain_append {s t : Bytes} : Plain (s ++ t) ↔ Plain s ∧ Plain t := List.forall_mem_append

theorem fgetsLines_line {acc line rest : Bytes} (hline : Plain line)
    (hlen : (acc ++ line).length + 1 < lineSize) :
    fgetsLines acc (line ++ 0x0a :: rest) = (acc ++ line ++ [0x0a]) :: fgetsLines [] rest := by
  induction line generalizing acc with
  | nil => rw [List.nil_append, fgetsLines, if_pos (Or.inl rfl), List.append_nil]
  | cons c line ih =>
    rw [List.append_cons] at hlen
    obtain ⟨⟨-, hnewline, -⟩, hrest⟩ := List.forall_mem_cons.mp hline
    have hroom : ¬(c = 0x0a ∨ (acc ++ [c]).length = lineSize - 1) := by
      rw [List.length_append] at hlen
      rintro (h | h)
      · exact hnewline h
      · omega
    rw [List.cons_append, fgetsLines, if_neg hroom, ih hrest hlen, List.append_cons acc c line]

theorem chomp_line {line : Bytes} (hline : Plain line) : chomp (line ++ [0x0a]) = line := by
  have hzero : (line ++ [0x0a]).takeWhile (· ≠ 0) = line ++ [0x0a] := by
    rw [List.takeWhile_eq_self_iff]
    intro c hc
    rcases List.mem_append.mp hc with hc | hc
    · exact decide_eq_true (hline c hc).1
    · rw [List.mem_singleton.mp hc]
      decide
  rw [chomp, hzero, List.rdropWhile_concat, if_pos (by decide), List.rdropWhile_eq_self_iff]
  intro hne
  have hlast := hline _ (List.getLast_mem hne)
  simp [hlast.2.1, hlast.2.2]

/-! ## Entries -/

/-- A name that is found again in front of ` = `. -/
def IsKeyName (name : Bytes) : Prop :=
  name ≠ [] ∧ Plain name ∧ ∀ c ∈ name, c ≠ 0x3d ∧ c ≠ 0x5b ∧ isBlank c = false

instance (name : Bytes) : Decidable (IsKeyName name) :=
  have : Decidable (∀ c ∈ name, c ≠ 0x3d ∧ c ≠ 0x5b ∧ isBlank c = false) :=
    List.decidableBAll _ name
  instDecidableAnd

variable {name value : Bytes}

theorem trimKey_name (hname : IsKeyName name) : trimKey (name ++ [0x20]) = name := by
  obtain ⟨hne, -, hchars⟩ := hname
  obtain ⟨c, rest, rfl⟩ := List.exists_cons_of_ne_nil hne
  have hblank : ∀ d ∈ c :: rest, isBlank d = false := fun d hd ↦ (hchars d hd).2.2
  have hc : isBlank c = false := hblank c List.mem_cons_self
  have hend : (rest ++ [0x20]).rdropWhile isBlank = rest := by
    rw [List.rdropWhile_concat, if_pos (by decide), List.rdropWhile_eq_self_iff]
    intro hrest
    rw [hblank _ (List.mem_cons_of_mem c (List.getLast_mem hrest))]
    exact Bool.false_ne_true
  rw [trimKey, List.cons_append, List.dropWhile_cons_of_neg (by rw [hc]; exact Bool.false_ne_true)]
  exact congrArg (c :: ·) hend

theorem splitEq_entry (hname : IsKeyName name) :
    splitEq (name ++ ascii " = " ++ value) = some (name ++ [0x20], 0x20 :: value) := by
  have hsplit : name ++ ascii " = " ++ value = (name ++ [0x20]) ++ 0x3d :: 0x20 :: value := by
    rw [show ascii " = " = [0x20, 0x3d, 0x20] from rfl]
    simp
  have hbefore : ∀ c ∈ name ++ [0x20], decide (c ≠ 0x3d) = true := by
    intro c hc
    rcases List.mem_append.mp hc with hc | hc
    · exact decide_eq_true (hname.2.2 c hc).1
    · rw [List.mem_singleton.mp hc]
      decide
  rw [hsplit, splitEq, if_pos (List.mem_append_right _ List.mem_cons_self),
    List.takeWhile_append_of_pos hbefore, List.dropWhile_append_of_pos hbefore,
    List.takeWhile_cons_of_neg (by decide), List.dropWhile_cons_of_neg (by decide),
    List.append_nil, List.tail_cons]

/-- An entry is found under its own name, and passed over under any other. -/
theorem findValue_entry {header key rest : Bytes} (hname : IsKeyName name) (hvalue : Plain value)
    (hlen : name.length + value.length + 4 < lineSize) :
    findValue header key (fgetsLines [] (entryLine name value ++ rest)) true =
      if name = key then some (value.dropWhile isBlank)
      else findValue header key (fgetsLines [] rest) true := by
  have hplain : Plain (name ++ ascii " = " ++ value) :=
    plain_append.mpr ⟨plain_append.mpr ⟨hname.2.1, by decide⟩, hvalue⟩
  have hlength : ([] ++ (name ++ ascii " = " ++ value)).length + 1 < lineSize := by
    rw [List.nil_append, List.length_append, List.length_append,
      show (ascii " = ").length = 3 from rfl]
    omega
  have hhead : (name ++ ascii " = " ++ value).head? ≠ some 0x5b := by
    obtain ⟨c, name', rfl⟩ := List.exists_cons_of_ne_nil hname.1
    exact fun h ↦ (hname.2.2 c List.mem_cons_self).2.1 (Option.some.inj h)
  rw [entryLine, List.append_assoc _ [0x0a] rest, List.singleton_append,
    fgetsLines_line hplain hlength, List.nil_append, findValue]
  simp only [chomp_line hplain, hhead, if_false, Bool.not_true, Bool.false_eq_true,
    splitEq_entry hname, trimKey_name hname]
  by_cases hkey : name = key
  · rw [if_neg (not_not.mpr hkey), if_pos hkey]
    rfl
  · rw [if_pos hkey, if_neg hkey]

/-- The header of a section decides whether the entries below are looked at. -/
theorem findValue_header {header key sect rest : Bytes} (hsect : Plain sect)
    (hlen : sect.length + 3 < lineSize) :
    findValue header key (fgetsLines [] (headerLine sect ++ rest)) false =
      findValue header key (fgetsLines [] rest) ([0x5b] ++ sect ++ [0x5d] = header) := by
  have hplain : Plain ([0x5b] ++ sect ++ [0x5d]) :=
    plain_append.mpr ⟨plain_append.mpr ⟨by decide, hsect⟩, by decide⟩
  have hlength : ([] ++ ([0x5b] ++ sect ++ [0x5d])).length + 1 < lineSize := by
    rw [List.nil_append, List.length_append, List.length_append]
    exact Nat.lt_of_le_of_lt (Nat.le_of_eq (by simp; omega)) hlen
  rw [headerLine, List.append_assoc _ [0x0a] rest,
    show [0x0a] ++ rest = 0x0a :: rest from rfl, fgetsLines_line hplain hlength, List.nil_append,
    findValue]
  simp only [chomp_line hplain]
  rfl

/-! ## What was written is read -/

theorem HexGroups.mem {s b : Bytes} (h : HexGroups s b) {c : UInt8} (hc : c ∈ s) :
    c = 0x3a ∨ hexDigit c ≠ none := by
  induction h with
  | nil => cases hc
  | colon _ ih =>
    rcases List.mem_cons.mp hc with rfl | hc
    · exact Or.inl rfl
    · exact ih hc
  | group hhi hlo _ ih =>
    rcases List.mem_cons.mp hc with rfl | hc
    · exact Or.inr (hhi ▸ Option.some_ne_none _)
    rcases List.mem_cons.mp hc with rfl | hc
    · exact Or.inr (hlo ▸ Option.some_ne_none _)
    · exact ih hc

/-- Digits and colons are neither zeros nor line ends nor blanks. -/
theorem ne_of_mem_fipsBuf2hexstr {mac : Bytes} {c d : UInt8} (hc : c ∈ fipsBuf2hexstr mac)
    (hd : d ≠ 0x3a ∧ hexDigit d = none) : c ≠ d := by
  rintro rfl
  rcases (hexGroups_fipsBuf2hexstr mac).mem hc with h | h
  · exact hd.1 h
  · exact h hd.2

theorem plain_fipsBuf2hexstr (mac : Bytes) : Plain (fipsBuf2hexstr mac) := by
  intro c hc
  exact ⟨ne_of_mem_fipsBuf2hexstr hc (by decide), ne_of_mem_fipsBuf2hexstr hc (by decide),
    ne_of_mem_fipsBuf2hexstr hc (by decide)⟩

theorem dropWhile_fipsBuf2hexstr (mac : Bytes) :
    (fipsBuf2hexstr mac).dropWhile isBlank = fipsBuf2hexstr mac := by
  rw [List.dropWhile_eq_self_iff]
  intro hpos hblank
  have hmem := List.getElem_mem hpos
  rcases of_decide_eq_true hblank with h | h
  · exact ne_of_mem_fipsBuf2hexstr hmem (by decide) h
  · exact ne_of_mem_fipsBuf2hexstr hmem (by decide) h

theorem length_fipsBuf2hexstr (mac : Bytes) : (fipsBuf2hexstr mac).length ≤ 3 * mac.length := by
  fun_induction fipsBuf2hexstr mac with
  | case1 => exact Nat.zero_le _
  | case2 b => exact Nat.le_add_right 2 1
  | case3 b b' buf ih =>
    simp only [List.length_cons] at ih ⊢
    omega

section RoundTrip

variable {sect modulePath : Bytes} {libraryPath : Option Bytes}

/-- What the section name and the paths have to satisfy. -/
structure Fits (sect modulePath : Bytes) (libraryPath : Option Bytes) : Prop where
  sect : Plain sect ∧ sect.length ≤ 253
  modulePath : Plain modulePath ∧ modulePath.length ≤ 4000
  libraryPath : ∀ path ∈ libraryPath, Plain path ∧ path.length ≤ 4000

/-- An entry with a MAC is found under its name. -/
theorem findValue_mac {header key name mac rest : Bytes} (hname : IsKeyName name)
    (hlen : name.length < 100) (hmac : mac.length = 32) :
    findValue header key (fgetsLines [] (entryLine name (fipsBuf2hexstr mac) ++ rest)) true =
      if name = key then some (fipsBuf2hexstr mac)
      else findValue header key (fgetsLines [] rest) true := by
  have hhex := length_fipsBuf2hexstr mac
  rw [findValue_entry hname (plain_fipsBuf2hexstr mac), dropWhile_fipsBuf2hexstr]
  rw [show lineSize = 4096 from rfl]
  omega

variable {moduleMac : Bytes} {library : Option (Bytes × Bytes)}

/-- The header and the first three entries are passed over. -/
theorem readConfigValue_skip {key : Bytes} (hfits : Fits sect modulePath (library.map Prod.fst))
    (hkey : key ≠ ascii "activate" ∧ key ≠ ascii "conditional-errors" ∧ key ≠ ascii "module") :
    readConfigValue (some (writeConfig sect moduleMac modulePath library)) sect key =
      findValue ([0x5b] ++ sect ++ [0x5d]) key (fgetsLines []
        (entryLine (ascii "module-mac") (fipsBuf2hexstr moduleMac) ++ libraryLines library))
          true := by
  have hheader : ([0x5b] ++ sect ++ [0x5d]).length ≤ headerSize - 1 := by
    have hsect := hfits.sect.2
    simp only [List.length_append, List.length_singleton, headerSize]
    omega
  have hline : sect.length + 3 < lineSize :=
    Nat.lt_of_le_of_lt (Nat.add_le_add_right hfits.sect.2 3) (by decide)
  have hmodule : (ascii "module").length + modulePath.length + 4 < lineSize := by
    have hpath := hfits.modulePath.2
    rw [show (ascii "module").length = 6 from rfl, show lineSize = 4096 from rfl]
    omega
  have htext : writeConfig sect moduleMac modulePath library = headerLine sect ++
      (entryLine (ascii "activate") (ascii "1") ++
        (entryLine (ascii "conditional-errors") (ascii "1") ++
          (entryLine (ascii "module") modulePath ++
            (entryLine (ascii "module-mac") (fipsBuf2hexstr moduleMac) ++
              libraryLines library)))) := by
    simp only [writeConfig, List.append_assoc]
  rw [readConfigValue, Option.bind_some, List.take_of_length_le hheader, htext,
    findValue_header hfits.sect.1 hline, decide_eq_true rfl,
    findValue_entry (by decide) (by decide) (by decide), if_neg hkey.1.symm,
    findValue_entry (by decide) (by decide) (by decide), if_neg hkey.2.1.symm,
    findValue_entry (by decide) hfits.modulePath.1 hmodule, if_neg hkey.2.2.symm]

/-- The MAC of the module is read as it was written. -/
theorem readConfigValue_moduleMac (hfits : Fits sect modulePath (library.map Prod.fst))
    (hmac : moduleMac.length = 32) :
    readConfigValue (some (writeConfig sect moduleMac modulePath library)) sect
      (ascii "module-mac") = some (fipsBuf2hexstr moduleMac) := by
  rw [readConfigValue_skip hfits (by decide), findValue_mac (by decide) (by decide) hmac,
    if_pos rfl]

/-- The MAC of the library is read as it was written, and not found if there is no library. -/
theorem readConfigValue_libraryMac (hfits : Fits sect modulePath (library.map Prod.fst))
    (hmac : moduleMac.length = 32) (hlib : ∀ l ∈ library, l.2.length = 32) :
    readConfigValue (some (writeConfig sect moduleMac modulePath library)) sect
      (ascii "library-mac") = library.map fun l ↦ fipsBuf2hexstr l.2 := by
  rw [readConfigValue_skip hfits (by decide), findValue_mac (by decide) (by decide) hmac,
    if_neg (by decide)]
  cases library with
  | none => rfl
  | some l =>
    rw [libraryLines, findValue_mac (by decide) (by decide) (hlib l rfl), if_pos rfl]
    rfl

end RoundTrip

/-! ## Installing, then verifying -/

theorem macMatches_fipsBuf2hexstr {mac : Bytes} (hmac : mac.length = 32) :
    macMatches (fipsBuf2hexstr mac) mac = true := by
  have hbuf := (fipsHexstr2buf_eq_digest hmac).mpr (hexGroups_fipsBuf2hexstr mac)
  rw [macMatches, hbuf]
  exact decide_eq_true ⟨hmac.symm, List.take_length⟩

/-- Reading the file to its end gives the bytes of the image, in pieces that are not empty. -/
def ReadsAs (file : Option Stream) (image : Bytes) : Prop :=
  ∃ reads : List Bytes, file = some ⟨reads, false⟩ ∧ (∀ buf ∈ reads, buf ≠ []) ∧
    reads.flatten = image

theorem ReadsAs.computeFileHmac {file : Option Stream} {image : Bytes} (h : ReadsAs file image)
    (stack : HmacCtx sha) (out : Bytes) :
    computeFileHmac stack out file = some (fileHmac sha image) := by
  obtain ⟨reads, rfl, hreads, rfl⟩ := h
  exact computeFileHmac_eq_some stack out hreads

/-- Writing the configuration file and verifying against it, with files that have the same contents
both times. -/
theorem install_then_verify (stack stack' : HmacCtx sha) (out out' : Bytes)
    (fopen fopen' : Bytes → Option Stream) (sect modulePath moduleImage : Bytes)
    (library : Option (Bytes × Bytes)) (hfits : Fits sect modulePath (library.map Prod.fst))
    (hmodule : ReadsAs (fopen modulePath) moduleImage ∧ ReadsAs (fopen' modulePath) moduleImage)
    (hlibrary : ∀ l ∈ library, ReadsAs (fopen l.1) l.2 ∧ ReadsAs (fopen' l.1) l.2) :
    ∃ file, generateConfig stack out fopen sect modulePath (library.map Prod.fst) = some file ∧
      readConfigValue (some file) sect (ascii "module-mac") =
        some (fipsBuf2hexstr (fileHmac sha moduleImage)) ∧
      readConfigValue (some file) sect (ascii "library-mac") =
        library.map (fun l ↦ fipsBuf2hexstr (fileHmac sha l.2)) ∧
      doVerify stack' out' fopen' modulePath (library.map Prod.fst) (some file) sect = true := by
  let macs := library.map fun l ↦ (l.1, fileHmac sha l.2)
  have hpaths : macs.map Prod.fst = library.map Prod.fst := Option.map_map ..
  have hlengths : ∀ l ∈ macs, l.2.length = 32 := by
    intro l hl
    obtain ⟨l', -, rfl⟩ := Option.map_eq_some_iff.mp hl
    exact length_fileHmac sha l'.2
  rw [← hpaths] at hfits
  have hmoduleHex := readConfigValue_moduleMac hfits (length_fileHmac sha moduleImage)
  have hlibraryHex := readConfigValue_libraryMac hfits (length_fileHmac sha moduleImage)
    hlengths
  rw [Option.map_map] at hlibraryHex
  refine ⟨writeConfig sect (fileHmac sha moduleImage) modulePath macs, ?_, hmoduleHex,
    hlibraryHex, ?_⟩
  · rw [generateConfig, hmodule.1.computeFileHmac, Option.bind_some]
    cases library with
    | none => rfl
    | some l =>
      simp only [Option.map_some, (hlibrary l rfl).1.computeFileHmac]
      rfl
  · unfold doVerify
    rw [hmoduleHex, hlibraryHex, hmodule.2.computeFileHmac]
    simp only [macMatches_fipsBuf2hexstr (length_fileHmac sha moduleImage)]
    cases library with
    | none => rfl
    | some l =>
      simp only [Option.map_some, (hlibrary l rfl).2.computeFileHmac]
      exact macMatches_fipsBuf2hexstr (length_fileHmac sha l.2)

/-- A path that looks like an entry of its own, in a section whose name has brackets. -/
theorem install_then_verify_odd_names :
    ∃ file, generateConfig (.cleared truncation) [] (fun _ ↦ some ⟨[[1, 2]], false⟩)
        (ascii "a]=[b") (ascii "library-mac = 00") none = some file ∧
      doVerify (.cleared truncation) [] (fun _ ↦ some ⟨[[1], [2]], false⟩)
        (ascii "library-mac = 00") none (some file) (ascii "a]=[b") = true := by
  obtain ⟨file, hfile, -, -, hverify⟩ := install_then_verify (.cleared truncation)
    (.cleared truncation) [] [] (fun _ ↦ some ⟨[[1, 2]], false⟩) (fun _ ↦ some ⟨[[1], [2]], false⟩)
    (ascii "a]=[b") (ascii "library-mac = 00") [1, 2] none
    ⟨by decide, by decide, nofun⟩
    ⟨⟨_, rfl, by decide, rfl⟩, ⟨_, rfl, by decide, rfl⟩⟩ nofun
  exact ⟨file, hfile, hverify⟩

end Integrity

end QudoPqc
