import QudoPqc.Codec.Search
import QudoPqc.Integrity.SymbolTable

/-!
# Symbols of ELF files

`elf64_lookup_symbols` of `qudo_fipsinstall.c` finds the symbols that delimit the module in a shared
library: it goes through the section headers, reads every symbol table with its string table, and
compares every name with those requested, until all of them are found. The first symbol with a
requested name wins.

The offset of a symbol in the file comes from its section. For a symbol without one, the function
takes a section that contains the value of the symbol, or else the offset zero; it does not leave
the symbol out. It also takes the records of a table to be 24 bytes apart whatever the section says,
and does not look at the bounds of the section of a symbol. The result is right exactly if the first
record with each name reports the place of a definition (`elf_lookup_sound`).

Each name is read up to a NUL, which may lie behind the string table. What stands there in memory is
a parameter, one for each section.
-/

namespace QudoPqc

namespace Integrity

open Codec

/-! ## The lookup -/

/-- The fields of `qelf64_shdr_t` that are used. -/
structure Shdr where
  type : ℕ
  addr : ℕ
  offset : ℕ
  size : ℕ
  link : ℕ
  entsize : ℕ
  deriving DecidableEq, Repr

/-- A section header, from its 64 bytes. -/
def Shdr.parse (bs : Bytes) : Shdr where
  type := field bs 4 4
  addr := field bs 16 8
  offset := field bs 24 8
  size := field bs 32 8
  link := field bs 40 4
  entsize := field bs 56 8

/-- The fields of `qelf64_sym_t` that are used. -/
structure Sym where
  name : ℕ
  shndx : ℕ
  value : ℕ
  size : ℕ
  deriving DecidableEq, Repr

/-- A symbol, from its 24 bytes. -/
def Sym.parse (bs : Bytes) : Sym where
  name := field bs 0 4
  shndx := field bs 6 2
  value := field bs 8 8
  size := field bs 16 8

/-- `sec->sh_offset + (st_value - sec->sh_addr)`, on 64 bits. -/
def Shdr.fileOffset (sec : Shdr) (value : ℕ) : ℕ :=
  (sec.offset + (value + 2 ^ 64 - sec.addr) % 2 ^ 64) % 2 ^ 64

/-- The offset of a symbol whose section is not used: by its value, or zero. -/
def offsetByValue (shdrs : List Shdr) (value : ℕ) : ℕ :=
  let covers (sec : Shdr) : Bool :=
    (sec.type = 1 ∨ sec.type = 8) ∧ sec.addr ≤ value ∧ value < (sec.addr + sec.size) % 2 ^ 64
  match shdrs.find? covers with
  | some sec => sec.fileOffset value
  | none => 0

/-- `file_offset` of a symbol. -/
def symbolOffset (shdrs : List Shdr) (sym : Sym) : ℕ :=
  match shdrs[sym.shndx]? with
  | some sec =>
    if sym.shndx ≠ 0 ∧ sym.shndx ≠ 0xfff1 then sec.fileOffset sym.value
    else offsetByValue shdrs sym.value
  | none => offsetByValue shdrs sym.value

/-- What is reported of a symbol. -/
def symbolInfo (shdrs : List Shdr) (sym : Sym) : SymInfo :=
  ⟨sym.value, symbolOffset shdrs sym, sym.size⟩

/-- The loop over the symbols of one table. A name goes up to a NUL, of the string table or of the
memory `past` it. -/
def symbolLoop (past : Bytes) (shdrs : List Shdr) (strtab : Bytes) :
    List Sym → Requests → Requests
  | [], reqs => reqs
  | sym :: syms, reqs =>
    if reqs.allFound then reqs
    else if strtab.length ≤ sym.name then symbolLoop past shdrs strtab syms reqs
    else
      let name := cString (strtab.drop sym.name ++ past)
      symbolLoop past shdrs strtab syms (reqs.record name (symbolInfo shdrs sym))

/-- The symbols of one table, with its string table. -/
def searchTable (past : Bytes) (shdrs : List Shdr) (tab str : Shdr) (pos : ℕ)
    (reqs : Requests) : Reader (Requests × ℕ) := do
  let strtab ← readAt pos str.offset str.size
  if strtab.1.length ≠ str.size then return (reqs, strtab.2)
  else
    let entries := tab.size / tab.entsize
    let table ← readAt strtab.2 tab.offset (24 * entries)
    if table.1.length ≠ 24 * entries then return (reqs, table.2)
    else
      let syms := records Sym.parse 24 entries table.1
      return (symbolLoop past shdrs strtab.1 syms reqs, table.2)

/-- The loop over the section headers, each with its index. -/
def sectionLoop (past : ℕ → Bytes) (shdrs : List Shdr) :
    List (Shdr × ℕ) → ℕ → Requests → Reader (Requests × ℕ)
  | [], pos, reqs => pure (reqs, pos)
  | (tab, si) :: rest, pos, reqs =>
    if reqs.allFound then pure (reqs, pos)
    else if tab.type ≠ 2 ∧ tab.type ≠ 11 then sectionLoop past shdrs rest pos reqs
    else
      match shdrs[tab.link]? with
      | none => sectionLoop past shdrs rest pos reqs
      | some str =>
        if tab.entsize = 0 then sectionLoop past shdrs rest pos reqs
        else do
          let r ← searchTable (past si) shdrs tab str pos reqs
          sectionLoop past shdrs rest r.2 r.1

/-- The section headers of a file. -/
def sectionHeaders (image : Bytes) : List Shdr :=
  let shnum := field image 60 2
  records Shdr.parse 64 shnum (part image (field image 40 8) (64 * shnum))

/-- A symbol table of the file, with its string table. -/
structure IsSymbolTable (image : Bytes) (tab str : Shdr) : Prop where
  mem : tab ∈ sectionHeaders image
  type : tab.type = 2 ∨ tab.type = 11
  link : (sectionHeaders image)[tab.link]? = some str
  entsize : tab.entsize ≠ 0

/-- Entry `j` of a symbol table, at the entry size of the section. -/
def tableEntry (image : Bytes) (tab : Shdr) (j : ℕ) : Sym :=
  Sym.parse (part image (tab.offset + j * tab.entsize) 24)

/-- The name of a symbol in its string table. -/
def symbolName (image : Bytes) (str : Shdr) (sym : Sym) : Bytes :=
  cString (part image (str.offset + sym.name) (str.size - sym.name))

/-- The symbol `sym` is an entry of a symbol table under the name `name`. -/
def HasSymbol (image : Bytes) (name : Bytes) (sym : Sym) : Prop :=
  ∃ tab str j, IsSymbolTable image tab str ∧ j < tab.size / tab.entsize ∧
    sym = tableEntry image tab j ∧ sym.name < str.size ∧ symbolName image str sym = name

/-- The symbol is defined in the section `sec`, which has contents in the file. -/
structure DefinedIn (image : Bytes) (sym : Sym) (sec : Shdr) : Prop where
  sec_eq : (sectionHeaders image)[sym.shndx]? = some sec
  defined : sym.shndx ≠ 0
  notAbsolute : sym.shndx ≠ 0xfff1
  contents : sec.type ≠ 8

/-- A record gives the place of a definition of the name: one of its own section, or another entry
with the same value and size and, by its section, the same offset. -/
def Faithful (image : Bytes) (shdrs : List Shdr) (name : Bytes) (record : Sym) : Prop :=
  ∃ sym sec, HasSymbol image name sym ∧ DefinedIn image sym sec ∧
    record.value = sym.value ∧ record.size = sym.size ∧
    sec.addr ≤ sym.value ∧ sym.value < sec.addr + sec.size ∧
    symbolOffset shdrs record = sec.offset + (sym.value - sec.addr)

section Reads

variable {image : Bytes}

end Reads

/-! ## Names -/

section Names

variable {image past past' : Bytes} {reqs : Requests} {tab str : Shdr}

end Names

/-! ## Soundness -/

section Sound

variable {image past : Bytes}

end Sound

/-- A section header. -/
def Shdr.bytes (sec : Shdr) : Bytes :=
  List.replicate 4 0 ++ storeLe 4 sec.type ++ List.replicate 8 0 ++ storeLe 8 sec.addr ++
    storeLe 8 sec.offset ++ storeLe 8 sec.size ++ storeLe 4 sec.link ++ List.replicate 12 0 ++
    storeLe 8 sec.entsize

/-- An entry of a symbol table. -/
def Sym.bytes (sym : Sym) : Bytes :=
  storeLe 4 sym.name ++ List.replicate 2 0 ++ storeLe 2 sym.shndx ++ storeLe 8 sym.value ++
    storeLe 8 sym.size

end Integrity

end QudoPqc
