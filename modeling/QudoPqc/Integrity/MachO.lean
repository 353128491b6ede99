import QudoPqc.Codec.Search
import QudoPqc.Integrity.SymbolTable

/-!
# Symbols of Mach-O files

`macho64_lookup_symbols` of `qudo_fipsinstall.c` first goes through the load commands of a library,
and remembers the symbol table, up to 32 segments and up to 256 sections. Then it looks at the
symbols, as the lookups in the other formats do. A symbol has no section of its own here: its offset
in the file is that of its value in the first section that contains it, or in the first such
segment.

The symbol table command is read into a buffer, which a command at the end of the file overwrites in
part. The names have one leading underscore removed. As in the other formats a name that does not
end in the string table goes on in the memory `past` it.
-/

namespace QudoPqc

namespace Integrity

namespace MachO

open Codec

/-! ## Load commands -/

/-- A segment or a section: addresses, and their place in the file. -/
structure Range where
  addr : ℕ
  size : ℕ
  fileoff : ℕ
  deriving DecidableEq, Repr

/-- `qmacho64_section_t`, from its 80 bytes. -/
def Range.ofSection (bs : Bytes) : Range where
  addr := field bs 32 8
  size := field bs 40 8
  fileoff := field bs 48 4

/-- What the loop over the load commands keeps: the buffer for the symbol table command, the
segments and sections, and the position in the file. -/
structure Commands where
  symtab : Bytes
  hasSymtab : Bool
  segs : List Range
  sects : List Range
  pos : ℕ

/-- The sections of a segment. They follow each other in the file. -/
def sectionLoop : ℕ → ℕ → List Range → Reader (List Range × ℕ)
  | 0, pos, sects => pure (sects, pos)
  | nsects + 1, pos, sects =>
    if 256 ≤ sects.length then pure (sects, pos)
    else do
      let bs ← Reader.bytesAt pos 80
      let sects := if bs.length = 80 then sects ++ [Range.ofSection bs] else sects
      sectionLoop nsects (pos + bs.length) sects

/-- The fields of `qmacho64_nlist_t` that are used. -/
structure Nlist where
  strx : ℕ
  value : ℕ
  deriving DecidableEq, Repr

/-- A symbol, from its 16 bytes. -/
def Nlist.parse (bs : Bytes) : Nlist where
  strx := field bs 0 4
  value := field bs 8 8

/-- The offset of an address by the first range that contains it, or zero. -/
def offsetIn (ranges : List Range) (value : ℕ) : ℕ :=
  match ranges.find? fun r ↦ r.addr ≤ value ∧ value < (r.addr + r.size) % 2 ^ 64 with
  | some r => (r.fileoff + (value - r.addr)) % 2 ^ 64
  | none => 0

/-- What is reported of a symbol. -/
def symbolInfo (st : Commands) (sym : Nlist) : SymInfo where
  vaddr := sym.value
  fileOffset :=
    if offsetIn st.sects sym.value = 0 then offsetIn st.segs sym.value
    else offsetIn st.sects sym.value
  size := 0

/-- The loop over the symbols. -/
def symbolLoop (past : Bytes) (st : Commands) (strtab : Bytes) :
    List Nlist → Requests → Requests
  | [], reqs => reqs
  | sym :: syms, reqs =>
    if reqs.allFound then reqs
    else if strtab.length ≤ sym.strx then symbolLoop past st strtab syms reqs
    else
      let name := stripUnderscore (cString (strtab.drop sym.strx ++ past))
      symbolLoop past st strtab syms (reqs.record name (symbolInfo st sym))

end MachO

end Integrity

end QudoPqc
