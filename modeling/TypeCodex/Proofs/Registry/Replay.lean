import Mathlib.Data.List.Forall2
import TypeCodex.Proofs.Registry.Stable
import TypeCodex.Proofs.Wire.RoundTrip

/-!
# Rebuilding a registry from its views

The views of all types, sent over the wire in the order of their identifiers, rebuild the
registry: a new one with the same options gives out the same identifiers and ends with the
same cells, stash and index. What arrives of a type is its own encoding, and the encodings
that a run has appended are accepted again in their order, since each of them was accepted
by the registry that held the ones before it.

## Main definitions

* `Registry.arrival`, `Registry.transfer` — sends the view of a type from one registry to
  another.
* `Registry.replay` — transfers all types of a registry.

## Main statements

* `Registry.Holds.arrival_eq` — what arrives of a type is its own encoding.
* `Registry.Holds.take_run` — what a run has appended, interned anew, does what the run did.
* `Registry.replay_run` — a replay into a new registry rebuilds the registry.
-/

namespace TypeCodex

namespace Reader

variable {σ ε α β : Type} {f : α → Reader σ ε β} {a : α} {b : β} {as as' : List α}
  {bs bs' : List β} {s₀ s₁ s₂ : σ}

theorem mapM_cons_ok (h : f a s₀ = .ok (b, s₁)) (h' : as.mapM f s₁ = .ok (bs, s₂)) :
    (a :: as).mapM f s₀ = .ok (b :: bs, s₂) := by
  rw [List.mapM_cons]
  exact bind_eq_ok.2 ⟨b, s₁, h, bind_eq_ok.2 ⟨bs, s₂, h', rfl⟩⟩

theorem mapM_append_ok (h : as.mapM f s₀ = .ok (bs, s₁)) (h' : as'.mapM f s₁ = .ok (bs', s₂)) :
    (as ++ as').mapM f s₀ = .ok (bs ++ bs', s₂) := by
  rw [List.mapM_append]
  exact bind_eq_ok.2 ⟨bs, s₁, h, bind_eq_ok.2 ⟨bs', s₂, h', rfl⟩⟩

end Reader

namespace Registry

/-- Why a type does not get from one registry to another. -/
inductive TransferError where
  /-- The type has no view. -/
  | view (e : RegistryError)
  /-- The bytes do not hold a view. -/
  | wire (e : Wire.Error)
  /-- The encoding of the view is refused. -/
  | intern (e : RegistryError)

/-- Interns an encoding in the registry at hand. A refusal ends the reading. -/
def take (p : Packed) : Reader Registry TransferError TypeId := fun s =>
  match s.intern p with
  | (.ok id, s') => .ok (id, s')
  | (.error e, _) => .error (.intern e)

/-- The encoding of the view that arrives when the view of a type is sent over the wire. -/
def arrival (r : Registry) (id : TypeId) : Except TransferError Packed := do
  let sent ← (r.view id).mapError .view
  let (received, _) ← (Wire.decodeView (Wire.encodeView sent)).mapError .wire
  pure received.pack

/-- Sends the view of a type over the wire and interns, in the registry at hand, the
encoding of what arrives. -/
def transfer (r : Registry) (id : TypeId) : Reader Registry TransferError TypeId := do
  take (← r.arrival id)

/-- The identifiers that are given out, in their order. -/
def ids (r : Registry) : List TypeId :=
  (List.range' 1 r.size).map fun i => ⟨UInt32.ofNat i⟩

/-- Transfers all types in the order of their identifiers. The answers are the identifiers
that they get. -/
def replay (r : Registry) : Reader Registry TransferError (List TypeId) := r.ids.mapM r.transfer

variable {r s : Registry} {ps qs : List Packed} {p : Packed} {id : TypeId} {answers : List TypeId}

/-- Numbers behind those that were there. -/
theorem forall₂_numbers_append {new new' : List Packed} {answers' : List TypeId}
    (h : List.Forall₂ (Numbers ps) answers new)
    (h' : List.Forall₂ (Numbers (ps ++ qs)) answers' new') :
    List.Forall₂ (Numbers (ps ++ qs)) (answers ++ answers') (new ++ new') :=
  List.rel_append (h.imp fun _ _ hp => hp.append qs) h'

theorem take_of_intern (h : r.intern p = (.ok id, s)) : take p r = .ok (id, s) := by
  rw [take, h]

namespace Holds

/-! ## Identifiers -/

/-- The identifiers are the numbers from one to the size. -/
theorem index_ids (H : r.Holds ps) : r.ids.map TypeId.index = List.range' 1 r.size := by
  have hindex : ∀ i ∈ List.range' 1 r.size, (TypeId.mk (UInt32.ofNat i)).index = i := by
    intro i hi
    have hmem := List.mem_range'_1.1 hi
    have hlimit := H.limit
    rw [H.size_cells] at hlimit
    rw [H.size] at hmem
    exact UInt32.toNat_ofNat_of_lt (by change i < cellLimit; omega)
  rw [ids, List.map_map]
  exact (List.map_congr_left hindex).trans (List.map_id' _)

/-- The identifiers number the encodings one by one. -/
theorem numbers_ids (H : r.Holds ps) : List.Forall₂ (Numbers ps) r.ids ps := by
  have hlen : r.ids.length = ps.length := by rw [ids, List.length_map, List.length_range', H.size]
  refine List.forall₂_iff_get.2 ⟨hlen, ?_⟩
  intro i hi hi'
  have hindex : r.ids[i].index = 1 + 1 * i := by
    rw [← List.getElem_map TypeId.index (h := by simpa using hi)]
    simp only [H.index_ids, List.getElem_range']
  exact ⟨i, by rw [List.get_eq_getElem, hindex]; omega, List.getElem?_eq_getElem hi'⟩

/-- An encoding has one number only. -/
theorem leftUnique_numbers (H : r.Holds ps) : Relator.LeftUnique (Numbers ps) := by
  intro i p j hi hj
  have hindex := H.index_eq_some_iff.2 hi
  rw [H.index_eq_some_iff.2 hj] at hindex
  exact (Option.some.inj hindex).symm

/-! ## Transfers -/

/-- What arrives of a type is its own encoding. -/
theorem arrival_eq (H : r.Holds ps) (h : Numbers ps id p) : r.arrival id = .ok p := by
  obtain ⟨d, hd, -⟩ := H.describe h
  have hcount : d.view.list.length < 2 ^ 64 := by
    have hlt : d.shape.listed.length < 2 ^ 32 := Packed.countable_of_decode hd.decode
    rw [Descriptor.list_view]
    omega
  have hwire : Wire.decodeView (Wire.encodeView d.view) = .ok (d.view, []) := by
    simpa using Wire.decodeView_encodeView hcount []
  have hpack : d.view.pack = p := by rw [View.pack, Descriptor.descriptor_view, hd.pack]
  simp only [arrival, H.view_of_encodes h hd, Except.mapError, bind, Except.bind, hwire, hpack]
  rfl

/-- To transfer a type is to intern its encoding. -/
theorem transfer_eq (H : r.Holds ps) (h : Numbers ps id p) : r.transfer id = take p := by
  rw [transfer, H.arrival_eq h]
  rfl

theorem mapM_transfer (H : r.Holds ps) (h : List.Forall₂ (Numbers ps) answers qs) :
    answers.mapM r.transfer = qs.mapM take := by
  induction h with
  | nil => rfl
  | cons hp _ ih => rw [List.mapM_cons, List.mapM_cons, H.transfer_eq hp, ih]

/-! ## Interning again -/

/-- Encodings that are held are answered with their numbers. -/
theorem mapM_take_held (H : r.Holds ps) (h : List.Forall₂ (Numbers ps) answers qs) :
    qs.mapM take r = .ok (answers, r) := by
  induction h with
  | nil => rfl
  | cons hp _ ih =>
    have htake := take_of_intern (intern_known (H.index_eq_some_iff.2 hp))
    exact Reader.mapM_cons_ok htake ih

/-- What a request has appended, interned anew, does what the request did. -/
theorem take_perform (H : r.Holds ps) (q : Request) :
    ∃ new answers, (r.perform q).Holds (ps ++ new) ∧
      List.Forall₂ (Numbers (ps ++ new)) answers new ∧
      new.mapM take r = .ok (answers, r.perform q) := by
  rw [perform_eq]
  rcases H.intern_cases q.packed with
    ⟨id, -, h⟩ | ⟨-, e, h⟩ | ⟨-, id, r', h, hid, -, H'⟩
  · rw [h]
    exact ⟨[], [], by rwa [List.append_nil], .nil, rfl⟩
  · rw [h]
    exact ⟨[], [], by rwa [List.append_nil], .nil, rfl⟩
  · rw [h]
    have hnumbers : Numbers (ps ++ [q.packed]) id q.packed := numbers_concat.2 (.inr ⟨hid, rfl⟩)
    exact ⟨[q.packed], [id], H', .cons hnumbers .nil, Reader.mapM_cons_ok (take_of_intern h) rfl⟩

/-- What a run has appended, interned anew, does what the run did. -/
theorem take_run (H : r.Holds ps) (requests : List Request) :
    ∃ new answers, (r.run requests).Holds (ps ++ new) ∧
      List.Forall₂ (Numbers (ps ++ new)) answers new ∧
      new.mapM take r = .ok (answers, r.run requests) := by
  induction requests generalizing r ps with
  | nil => exact ⟨[], [], by rwa [List.append_nil], .nil, rfl⟩
  | cons q requests ih =>
    obtain ⟨new, answers, H', hanswers, htake⟩ := H.take_perform q
    obtain ⟨new', answers', H'', hanswers', htake'⟩ := ih H'
    refine ⟨new ++ new', answers ++ answers', ?_, ?_, Reader.mapM_append_ok htake htake'⟩
    · rwa [← List.append_assoc]
    · rw [← List.append_assoc]
      exact forall₂_numbers_append hanswers hanswers'

end Holds

/-- Whatever was requested of a registry, the views of its types, sent over the wire in the
order of their identifiers, get the same identifiers in a new registry with the same options
and make it the same registry. -/
theorem replay_run (options : Options) (requests : List Request) :
    let r := (make options).run requests
    r.ids.map TypeId.index = List.range' 1 r.size ∧
      r.replay (make options) = .ok (r.ids, r) := by
  intro r
  have H₀ := holds_make options
  obtain ⟨new, answers, H, hanswers, htake⟩ := H₀.take_run requests
  refine ⟨H.index_ids, ?_⟩
  have hall : (basicEncodings ++ new).mapM take (make options)
      = .ok ((make options).ids ++ answers, r) :=
    Reader.mapM_append_ok (H₀.mapM_take_held H₀.numbers_ids) htake
  have hids : (make options).ids ++ answers = r.ids :=
    List.left_unique_forall₂' H.leftUnique_numbers
      (forall₂_numbers_append H₀.numbers_ids hanswers) H.numbers_ids
  rw [replay, H.mapM_transfer H.numbers_ids, hall, hids]

/-- A type that contains itself and one that is not registered is rebuilt as it is. -/
example :
    let cyclic : View := { tag := .tuple, list := [⟨17⟩, ⟨300⟩] }
    let r := (make {}).run [.intern cyclic.pack]
    (r.replay (make {})).toOption.map Prod.fst = some r.ids := by
  decide +kernel

end Registry

end TypeCodex
