import TypeCodex.Proofs.Descriptor.RoundTrip
import TypeCodex.Proofs.Nibble.Agreement

/-!
# Encodings read where they stand

The operands of an encoding are read off its packed bytes whatever bytes stand behind them,
and reading stops behind the last operand, in front of any padding. So one sequence of bytes
begins with one encoding at most.

## Main statements

* `Shape.follows_read` — readers that agree on words agree on shapes.
* `Packed.Encodes.read_append` — operands are read in front of any further bytes.
* `Packed.Encodes.eq_of_append_eq` — one sequence of bytes begins with one encoding.
-/

namespace TypeCodex

/-- Readers that agree on words agree on shapes. -/
theorem Shape.follows_read {σ τ ε : Type} {R : σ → τ → Prop} {int : Reader σ ε UInt32}
    {int' : Reader τ ε UInt32} (hint : Reader.Follows R int int') (t : Tag) :
    Reader.Follows R (Shape.read int t) (Shape.read int' t) := by
  have hid : Reader.Follows R (Shape.readId int) (Shape.readId int') :=
    Reader.follows_map TypeId.mk hint
  have hids : Reader.Follows R (Shape.readIds int) (Shape.readIds int') :=
    Reader.follows_bind hint fun count => Reader.follows_list hid count.toNat
  cases t with
  | basic b => exact Reader.follows_pure _
  | variant => exact Reader.follows_map _ hids
  | array =>
    exact Reader.follows_bind hint fun _ => Reader.follows_bind hid fun _ => Reader.follows_pure _
  | vector => exact Reader.follows_map _ hid
  | map =>
    exact Reader.follows_bind hid fun _ => Reader.follows_bind hid fun _ => Reader.follows_pure _
  | tuple => exact Reader.follows_map _ hids
  | package => exact Reader.follows_map _ hids
  | function =>
    exact Reader.follows_bind hid fun _ => Reader.follows_bind hids fun _ => Reader.follows_pure _

namespace Packed.Encodes

variable {p q : Packed} {d d' : Descriptor}

/-- The nibbles of an encoding are well-formed and stand for its shape. -/
theorem spells (H : p.Encodes d) : Shape.Spells d.tag d.expand.nibbles d.shape := by
  have htag : d.expand.tagByte.tag? = some d.tag := Expanded.tag?_ofWords ..
  have hconst : d.expand.tagByte.isConst = d.isConst := Expanded.isConst_ofWords ..
  have hread := H.ofExpanded
  refine (Descriptor.ofExpanded_eq_ok_iff htag d.wellFormed_expand.fits d.shape).1 ?_
  rw [hread, hconst]

/-- The operands of an encoding are read in front of any further bytes, and reading stops
behind the last one. -/
theorem read_append (H : p.Encodes d) (rest : List UInt8) :
    Shape.read (Source.ofBytes fun i => (p.bytes ++ rest)[i]?).int d.tag 0
      = .ok (d.shape, d.expand.nibbles.length) := by
  obtain ⟨more, hmore⟩ := (of_unpack H.unpack).2.2
  have hs := Source.has_halves p.tagByte.byte (p.body ++ rest)
  have hns : ∀ n ∈ Nibble.halves (p.body ++ rest), Nibble.Fits n :=
    fun n hn => Nibble.fits_of_mem_halves hn
  have hsplit : Nibble.halves (p.body ++ rest)
      = d.expand.nibbles ++ (more ++ Nibble.halves rest) := by
    rw [Nibble.halves, List.flatMap_append, ← List.append_assoc, hmore]
    rfl
  have hread := (Shape.parses_read d.tag).reads _ _ H.spells 0 (more ++ Nibble.halves rest)
  rw [← hsplit] at hread
  obtain ⟨pos, hpos, hplace⟩ := Shape.follows_read (Source.follows_place hs hns) d.tag
    ⟨0, Nibble.halves (p.body ++ rest)⟩ 0 rfl _ _ hread
  have hoffset : 0 + d.expand.nibbles.length = pos := congrArg Cursor.offset hplace
  rw [Nat.zero_add] at hoffset
  rw [hoffset]
  exact hpos

/-- One sequence of bytes begins with one encoding. -/
theorem eq_of_append_eq (Hp : p.Encodes d) (Hq : q.Encodes d') {rest rest' : List UInt8}
    (h : p.bytes ++ rest = q.bytes ++ rest') : p = q := by
  have hbyte : p.tagByte = q.tagByte := congrArg TagByte.mk (List.cons.inj h).1
  have htag : d.tag = d'.tag := by
    have hq := Hq.tag?
    rw [← hbyte, Hp.tag?] at hq
    exact Option.some.inj hq
  have hconst : d.isConst = d'.isConst := by rw [← Hp.isConst, hbyte, Hq.isConst]
  have hread := Hp.read_append rest
  rw [h, htag, Hq.read_append rest'] at hread
  have hshape : d'.shape = d.shape := congrArg Prod.fst (Except.ok.inj hread)
  have hd : d = d' := by
    cases d
    cases d'
    exact congrArg₂ Descriptor.mk hconst hshape.symm
  rw [← Hp.pack, hd, Hq.pack]

end Packed.Encodes

end TypeCodex
