import QudoPqc.Codec.Packet

/-!
# Tagged values

In the encoding rules of ASN.1 a value is a tag, the length of its contents and the contents. The
length is one byte below 128, or a byte that counts the big-endian bytes after it. `IsLength` and
`IsTlv` say so of byte strings, without asking for the shortest spelling of a length; the parsers
built from `expect`, `require` and `getByte` are compared with them.
-/

namespace Codec

/-! ## Lengths and values -/

/-- The number whose big-endian bytes are `bs`. -/
def loadBe (bs : Bytes) : ℕ := bs.foldl (fun n b ↦ n * 256 + b.toNat) 0

/-- The bytes spell a length. -/
inductive IsLength : Bytes → ℕ → Prop
  | short {b : UInt8} (hb : b.toNat < 128) : IsLength [b] b.toNat
  | long {b : UInt8} {bs : Bytes} (hb : b.toNat = 128 + bs.length) (hbs : bs ≠ []) :
    IsLength (b :: bs) (loadBe bs)

/-- The bytes are a tag, the length of the contents and the contents. -/
def IsTlv (tag : UInt8) (contents bytes : Bytes) : Prop :=
  ∃ octets, IsLength octets contents.length ∧ bytes = tag :: (octets ++ contents)

/-- The first byte says where a length ends. -/
theorem IsLength.unique {octets octets' rest rest' : Bytes} {n n' : ℕ}
    (h : IsLength octets n) (h' : IsLength octets' n')
    (heq : octets ++ rest = octets' ++ rest') : octets = octets' ∧ n = n' ∧ rest = rest' := by
  cases h with
  | short hb =>
    cases h' with
    | short hb' =>
      obtain ⟨rfl, rfl⟩ := List.cons.inj heq
      exact ⟨rfl, rfl, rfl⟩
    | long hb' hbs' =>
      obtain ⟨rfl, -⟩ := List.cons.inj heq
      omega
  | long hb hbs =>
    cases h' with
    | short hb' =>
      obtain ⟨rfl, -⟩ := List.cons.inj heq
      omega
    | long hb' hbs' =>
      obtain ⟨rfl, htail⟩ := List.cons.inj heq
      obtain ⟨rfl, rfl⟩ := List.append_inj htail (by omega)
      exact ⟨rfl, rfl, rfl⟩

/-! ## Reading them -/

namespace Packet

variable {bs rest : Bytes} {u : Unit}

/-- The next byte. -/
def getByte : Packet UInt8
  | [] => none
  | b :: bs => some (b, bs)

/-- The next byte, which has to be `tag`. -/
def expect (tag : UInt8) : Packet Unit := getByte.bind fun b bs ↦
  if b = tag then some ((), bs) else none

/-- Go on only if the condition holds. -/
def require (c : Prop) [Decidable c] : Packet Unit := fun bs ↦ if c then some ((), bs) else none

theorem getByte_eq_some {b : UInt8} : getByte bs = some (b, rest) ↔ bs = b :: rest := by
  cases bs <;> simp [getByte]

theorem expect_eq_some {tag : UInt8} : expect tag bs = some (u, rest) ↔ bs = tag :: rest := by
  simp only [expect, bind_eq_some, getByte_eq_some, Option.ite_none_right_eq_some,
    Option.some.injEq, Prod.mk.injEq, true_and]
  constructor
  · rintro ⟨b, mid, rfl, rfl, rfl⟩
    rfl
  · rintro rfl
    exact ⟨tag, rest, rfl, rfl, rfl⟩

theorem require_eq_some {c : Prop} [Decidable c] :
    require c bs = some (u, rest) ↔ c ∧ bs = rest := by
  simp only [require, Option.ite_none_right_eq_some, Option.some.injEq, Prod.mk.injEq, true_and]

theorem getBytes_eq_some {n : ℕ} {b : Bytes} :
    getBytes n bs = some (b, rest) ↔ b.length = n ∧ bs = b ++ rest :=
  reads_getBytes n bs b rest

/-! ## Running them -/

variable {α : Type*}

theorem getByte_bind (f : UInt8 → Packet α) (b : UInt8) (bs : Bytes) :
    getByte.bind f (b :: bs) = f b bs := rfl

theorem expect_bind (f : Unit → Packet α) (tag : UInt8) (bs : Bytes) :
    (expect tag).bind f (tag :: bs) = f () bs :=
  bind_of_eq_some f (expect_eq_some.mpr rfl)

theorem getBytes_bind (f : Bytes → Packet α) {n : ℕ} {b : Bytes} (h : b.length = n)
    (bs : Bytes) : (getBytes n).bind f (b ++ bs) = f b bs :=
  bind_of_eq_some f (getBytes_eq_some.mpr ⟨h, rfl⟩)

theorem require_bind (f : Unit → Packet α) (c : Prop) [Decidable c] (bs : Bytes) :
    (require c).bind f bs = if c then f () bs else none := by
  rw [bind, require]
  split <;> rfl

end Packet

end Codec
