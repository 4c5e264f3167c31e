import TypeCodex.Proofs.Descriptor.InPlace
import TypeCodex.Proofs.Registry.Holds
import TypeCodex.Registry.Query

/-!
# Windows on what a registry holds

The window on an encoding that a registry holds begins with its bytes. What follows
them, the zeros of a cell or the next encodings of the stash, is never consumed, so a
type is described as by its encoding alone.

## Main statements

* `Registry.Holds.window` — the window on a registered type begins with its encoding.
* `Registry.Holds.describe` — a registered type is what its encoding says.
-/

namespace TypeCodex

namespace Window

variable {w : Window} {p : Packed}

theorem source_eq (w : Window) : w.source = Source.ofBytes fun i => w.toList[i]? :=
  congrArg Source.ofBytes (funext w.byte?_eq)

theorem tagByte?_eq (hw : p.bytes <+: w.toList) : w.tagByte? = some p.tagByte := by
  obtain ⟨rest, hrest⟩ := hw
  rw [tagByte?, byte?_eq, ← hrest]
  rfl

end Window

namespace Registry

variable {r : Registry} {ps : List Packed} {p : Packed} {id : TypeId} {d : Descriptor}

theorem entry_of_window {w : Window} (h : r.window id = .ok w) (hw : p.bytes <+: w.toList)
    (H : p.Encodes d) : r.entry id = .ok ⟨p.tagByte, d.tag, w.source⟩ := by
  rw [entry, h]
  simp only [bind, Except.bind, Window.tagByte?_eq hw, H.tag?]
  rfl

theorem describe_of_window {w : Window} (h : r.window id = .ok w) (hw : p.bytes <+: w.toList)
    (H : p.Encodes d) : r.describe id = .ok d := by
  have hentry := entry_of_window h hw H
  obtain ⟨rest, hrest⟩ := hw
  have hread := H.read_append rest
  rw [hrest, ← Window.source_eq] at hread
  rw [describe, hentry]
  simp only [bind, Except.bind, hread, H.isConst]
  rfl

/-- The window on a registered type begins with its encoding. -/
theorem Holds.window (H : r.Holds ps) (h : Numbers ps id p) :
    ∃ w, r.window id = .ok w ∧ p.bytes <+: w.toList := by
  have ⟨i, hid, hp⟩ := h
  obtain ⟨c, hc, hloc⟩ := H.cells i p hp
  have hcell : r.cell? id = some c := by rw [cell?, if_neg h.ne_invalid, hid, hc]
  by_cases hsize : p.size ≤ Cell.capacity
  · rw [place, if_pos hsize] at hloc
    refine ⟨⟨(Cell.padded p.bytes).toArray, 0⟩, ?_, ?_⟩
    · simp only [Registry.window, hcell, hloc]
    · exact List.prefix_append ..
  · rw [place, if_neg hsize] at hloc
    have hsplit : stashed ps = stashed (ps.take i) ++
        (p.bytes ++ stashed (ps.drop (i + 1))) := by
      obtain ⟨hlt, rfl⟩ := List.getElem?_eq_some_iff.1 hp
      conv_lhs => rw [← List.take_append_drop i ps, List.drop_eq_getElem_cons hlt,
        List.append_cons, stashed_append, stashed_append, stashed_singleton, if_neg hsize,
        List.append_assoc]
    have hlen : (stashed (ps.take i)).length ≤ r.stash.size := by
      rw [← Array.length_toList, H.stash, hsplit, List.length_append]
      omega
    refine ⟨⟨r.stash, (stashed (ps.take i)).length⟩, ?_, ?_⟩
    · simp only [Registry.window, hcell, hloc]
      exact if_pos hlen
    · rw [Window.toList, H.stash, hsplit, List.drop_left]
      exact List.prefix_append ..

/-- A registered type is what its encoding says. -/
theorem Holds.describe (H : r.Holds ps) (h : Numbers ps id p) :
    ∃ d, p.Encodes d ∧ r.describe id = .ok d := by
  have ⟨i, _, hp⟩ := h
  obtain ⟨d, hd, -⟩ := H.encodes i p hp
  obtain ⟨w, hw, hprefix⟩ := H.window h
  exact ⟨d, hd, describe_of_window hw hprefix hd⟩

end Registry

end TypeCodex
