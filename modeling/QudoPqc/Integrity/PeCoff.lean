import QudoPqc.Codec.Search
import QudoPqc.Integrity.SymbolTable

/-!
# Symbols of PE files

`pe_lookup_symbols` of `qudo_fipsinstall.c` walks through the COFF symbol table of a Windows
library. A record of the table is a symbol, or belongs to the symbol before it: a *primary* record
says how many *auxiliary* records follow.

The walk never takes an auxiliary record for a symbol. It passes over them together with the primary
record to which they belong, so that a symbol with auxiliary records is not found. Among the others,
a symbol is found by its name without a leading underscore.

## Well-formed tables

`Table image recs` says that the tables are in the file and that the symbols are the primary records
`recs`, each with its auxiliary records. On such a file the result of the lookup is that of a loop
over the primary records alone, and `Plain` says when this loop finds the record of a name.
-/

namespace QudoPqc

namespace Integrity

namespace Pe

open Codec

/-! ## The tables -/

/-- The fields of `qpe_coff_header_t` that are used. -/
structure CoffHeader where
  numberOfSections : ℕ
  pointerToSymbolTable : ℕ
  numberOfSymbols : ℕ
  sizeOfOptionalHeader : ℕ
  deriving DecidableEq, Repr

/-- A COFF header, from its 20 bytes. -/
def CoffHeader.parse (bs : Bytes) : CoffHeader where
  numberOfSections := field bs 2 2
  pointerToSymbolTable := field bs 8 4
  numberOfSymbols := field bs 12 4
  sizeOfOptionalHeader := field bs 16 2

/-- The fields of `qpe_section_header_t` that are used. -/
structure Section where
  virtualAddress : ℕ
  pointerToRawData : ℕ
  deriving DecidableEq, Repr

/-- A section header, from its 40 bytes. -/
def Section.parse (bs : Bytes) : Section where
  virtualAddress := field bs 12 4
  pointerToRawData := field bs 20 4

/-- An `int16_t`. -/
def int16 (n : ℕ) : ℤ := if n < 2 ^ 15 then n else n - 2 ^ 16

/-- The fields of `qpe_coff_symbol_t` that are used. -/
structure CoffSym where
  name : Bytes
  value : ℕ
  sectionNumber : ℤ
  numberOfAuxSymbols : ℕ
  deriving DecidableEq, Repr

/-- A record of the symbol table, from its 18 bytes. -/
def CoffSym.parse (bs : Bytes) : CoffSym where
  name := part bs 0 8
  value := field bs 8 4
  sectionNumber := int16 (field bs 12 2)
  numberOfAuxSymbols := field bs 17 1

/-- What is read before the symbols are looked at. -/
structure Tables where
  sections : List Section
  symbols : List CoffSym
  strtab : Option Bytes
  deriving DecidableEq, Repr

/-- An `int32_t` as an offset of 64 bits. -/
def signExtend (n : ℕ) : ℕ := if n < 2 ^ 31 then n else n + (2 ^ 64 - 2 ^ 32)

/-- The string table, which starts with its own size. -/
def readStrings (pos off : ℕ) : Reader (Option Bytes × ℕ) := do
  let size ← readAt pos off 4
  if size.1.length = 4 ∧ 4 < loadLe size.1 then
    let strtab ← readAt size.2 off (loadLe size.1)
    if strtab.1.length = loadLe size.1 then return (some strtab.1, strtab.2)
    else return (none, strtab.2)
  else return (none, size.2)

/-- The section headers, the symbols and the strings of which a COFF header tells. -/
def readTables (lfanew : ℕ) (coff : CoffHeader) (pos : ℕ) : Reader (Option Tables × ℕ) := do
  let optHdrEnd := (lfanew + 24 + coff.sizeOfOptionalHeader) % 2 ^ 64
  let sections ← readAt pos optHdrEnd (40 * coff.numberOfSections)
  if sections.1.length ≠ 40 * coff.numberOfSections then return (none, sections.2)
  else
    let symTable ← readAt sections.2 coff.pointerToSymbolTable (18 * coff.numberOfSymbols)
    if symTable.1.length ≠ 18 * coff.numberOfSymbols then return (none, symTable.2)
    else
      let strtabOff := coff.pointerToSymbolTable + 18 * coff.numberOfSymbols
      let strtab ← readStrings symTable.2 strtabOff
      let tables : Tables :=
        { sections := records Section.parse 40 coff.numberOfSections sections.1
          symbols := records CoffSym.parse 18 coff.numberOfSymbols symTable.1
          strtab := strtab.1 }
      return (some tables, strtab.2)

/-- The headers and the tables. The COFF header follows the signature. -/
def readFile : Reader (Option Tables × ℕ) := do
  let dos ← readAt 0 0 64
  if dos.1.length ≠ 64 then return (none, dos.2)
  else if field dos.1 0 2 ≠ 0x5a4d then return (none, dos.2)
  else
    let lfanew := signExtend (field dos.1 60 4)
    let sig ← readAt dos.2 lfanew 4
    if sig.1.length ≠ 4 then return (none, sig.2)
    else if loadLe sig.1 ≠ 0x4550 then return (none, sig.2)
    else
      let hdr ← Reader.bytesAt sig.2 20
      let coff := CoffHeader.parse hdr
      let pos := sig.2 + hdr.length
      if hdr.length ≠ 20 then return (none, pos)
      else if coff.pointerToSymbolTable = 0 ∨ coff.numberOfSymbols = 0 then return (none, pos)
      else readTables lfanew coff pos

/-! ## The lookup -/

/-- The name of a record: inline, or in the string table with the memory `past` it. -/
def entryName (past : Bytes) (strtab : Option Bytes) (sym : CoffSym) :
    Option Bytes :=
  if loadLe (sym.name.take 4) = 0 then
    match strtab with
    | none => none
    | some strings =>
      let offset := loadLe (sym.name.drop 4)
      if strings.length ≤ offset then none else some (cString (strings.drop offset ++ past))
  else some (cString sym.name)

/-- What is reported of a symbol. The sums are of 32 bits. -/
def symbolInfo (sections : List Section) (sym : CoffSym) : SymInfo :=
  if 0 < sym.sectionNumber ∧ sym.sectionNumber ≤ int16 sections.length then
    match sections[(sym.sectionNumber - 1).toNat]? with
    | some sec =>
      ⟨(sec.virtualAddress + sym.value) % 2 ^ 32, (sec.pointerToRawData + sym.value) % 2 ^ 32, 0⟩
    | none => ⟨sym.value, sym.value, 0⟩
  else ⟨sym.value, sym.value, 0⟩

/-- One symbol without auxiliary records. -/
def visit (past : Bytes) (tables : Tables) (sym : CoffSym) (reqs : Requests) : Requests :=
  match entryName past tables.strtab sym with
  | none => reqs
  | some name => reqs.record (stripUnderscore name) (symbolInfo tables.sections sym)

/-- `e_lfanew`. -/
def lfanew (image : Bytes) : ℕ := field image 60 4

/-- The COFF header of a file. -/
def coffHeader (image : Bytes) : CoffHeader :=
  CoffHeader.parse (part image (lfanew image + 4) 20)

/-- The offset of the section headers. -/
def sectionsOffset (image : Bytes) : ℕ :=
  lfanew image + 24 + (coffHeader image).sizeOfOptionalHeader

/-- The offset of the string table. -/
def stringsOffset (image : Bytes) : ℕ :=
  (coffHeader image).pointerToSymbolTable + 18 * (coffHeader image).numberOfSymbols

/-- The string table, if there is one. -/
def fileStrings (image : Bytes) : Option Bytes :=
  let size := field image (stringsOffset image) 4
  if stringsOffset image + 4 ≤ image.length ∧ 4 < size ∧ stringsOffset image + size ≤ image.length
  then some (part image (stringsOffset image) size)
  else none

/-- The tables of a file. -/
def fileTables (image : Bytes) : Tables :=
  let coff := coffHeader image
  { sections := records Section.parse 40 coff.numberOfSections
      (part image (sectionsOffset image) (40 * coff.numberOfSections))
    symbols := records CoffSym.parse 18 coff.numberOfSymbols
      (part image coff.pointerToSymbolTable (18 * coff.numberOfSymbols))
    strtab := fileStrings image }

/-- A name that starts in the string table ends there. -/
def NameEnds (strtab : Option Bytes) (sym : CoffSym) : Prop :=
  ∀ strings, strtab = some strings → loadLe (sym.name.take 4) = 0 →
    loadLe (sym.name.drop 4) < strings.length → 0 ∈ strings.drop (loadLe (sym.name.drop 4))

/-- The headers and tables are in the file, and the symbols are the records `recs`: a primary record
with its name inline or in the string table, and as many auxiliary records as it says. -/
structure Table (image : Bytes) (recs : List (CoffSym × List CoffSym)) : Prop where
  dos : 64 ≤ image.length
  magic : field image 0 2 = 0x5a4d
  lfanew_lt : lfanew image + 4 < 2 ^ 31
  signature : field image (lfanew image) 4 = 0x4550
  header : lfanew image + 24 ≤ image.length
  pointer : (coffHeader image).pointerToSymbolTable ≠ 0
  number : (coffHeader image).numberOfSymbols ≠ 0
  sections : sectionsOffset image + 40 * (coffHeader image).numberOfSections ≤ image.length
  symbols : stringsOffset image ≤ image.length
  names : ∀ r ∈ recs, NameEnds (fileStrings image) r.1
  records : (fileTables image).symbols = recs.flatMap fun r ↦ r.1 :: r.2
  aux : ∀ r ∈ recs, r.2.length = r.1.numberOfAuxSymbols

/-! ## What is read -/

section Reads

variable {image : Bytes} {pos off : ℕ}

variable {recs : List (CoffSym × List CoffSym)}

end Reads

/-! ## Primary records -/

/-- The lookup in the primary records alone. -/
def search (past : Bytes) (tables : Tables) : List CoffSym → Requests → Requests
  | [], reqs => reqs
  | sym :: syms, reqs =>
    if reqs.allFound then reqs
    else if 0 < sym.numberOfAuxSymbols then search past tables syms reqs
    else search past tables syms (visit past tables sym reqs)

section Walk

variable {past : Bytes} {tables : Tables} {reqs : Requests}

end Walk

/-! ## Names -/

/-- The record has the name, or the name with an underscore in front. -/
def HasName (strtab : Option Bytes) (n : Bytes) (sym : CoffSym) : Prop :=
  entryName [] strtab sym = some n ∨ entryName [] strtab sym = some (0x5f :: n)

instance (strtab : Option Bytes) (n : Bytes) : DecidablePred (HasName strtab n) :=
  fun _ ↦ inferInstanceAs (Decidable (_ ∨ _))

section Names

variable {past : Bytes} {strtab : Option Bytes} {sym : CoffSym} {n name : Bytes}

end Names

/-! ## Completeness -/

section Complete

variable {past : Bytes} {tables : Tables} {names : List Bytes}

/-- The section in which a symbol is defined. -/
structure InSection (sections : List Section) (sym : CoffSym) (sec : Section) : Prop where
  pos : 0 < sym.sectionNumber
  sec_eq : sections[(sym.sectionNumber - 1).toNat]? = some sec

/-- The lookup finds the record of the name: it has no auxiliary records, a name that starts with an
underscore has another one in front, and the offset is right. -/
structure Plain (tables : Tables) (n : Bytes) (sym : CoffSym) : Prop where
  aux : sym.numberOfAuxSymbols = 0
  head : entryName [] tables.strtab sym = some n → n.head? ≠ some 0x5f
  offset : ∀ sec, InSection tables.sections sym sec → sec.pointerToRawData + sym.value < 2 ^ 32 ∧
    (tables.sections.length < 2 ^ 15 ∨ sec.pointerToRawData = 0)

/-- Exactly one of the symbols has the name, and it is defined in a section. -/
structure Unique (tables : Tables) (syms : List CoffSym) (n : Bytes) (sym : CoffSym)
    (sec : Section) : Prop where
  filter_eq : syms.filter (fun s ↦ HasName tables.strtab n s) = [sym]
  inSection : InSection tables.sections sym sec

section Unique

variable {syms : List CoffSym} {n : Bytes} {sym : CoffSym} {sec : Section} {info : SymInfo}

end Unique

theorem Table.bounds {image : Bytes} {recs : List (CoffSym × List CoffSym)} (h : Table image recs) :
    (fileTables image).sections.length < 2 ^ 16 ∧
      ∀ sym ∈ recs.map Prod.fst, sym.value < 2 ^ 32 := by
  constructor
  · have hsections : (coffHeader image).numberOfSections < 256 ^ 2 := field_lt _ _ _
    simpa [fileTables, Integrity.records] using hsections
  · intro sym hsym
    obtain ⟨r, hr, rfl⟩ := List.mem_map.mp hsym
    have hmem : r.1 ∈ (fileTables image).symbols :=
      h.records ▸ List.mem_flatMap.mpr ⟨r, hr, List.mem_cons_self⟩
    obtain ⟨i, -, hparse⟩ := mem_records hmem
    rw [hparse]
    exact field_lt _ _ _

end Complete

/-! ## Files with one section -/

/-- A record of the symbol table. -/
def CoffSym.bytes (sym : CoffSym) : Bytes :=
  sym.name ++ storeLe 4 sym.value ++ storeLe 2 sym.sectionNumber.toNat ++ [0, 0, 2] ++
    storeLe 1 sym.numberOfAuxSymbols

end Pe

end Integrity

end QudoPqc
