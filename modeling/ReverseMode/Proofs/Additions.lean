import ReverseMode.Operator.Gradient
import ReverseMode.Proofs.Collapse

/-!
What contributions add to buffers.

A contribution adds an amount at every place of a buffer, whatever the buffer held before. A
gradient whose broadcast axes are summed away adds at each place the sum over the positions at which
the input is read there. The amounts are adjoint to a step if their products with every direction
are the products of the gradient of the output with what the step gives along the direction.
-/

namespace ReverseMode

namespace Element.Reading

open scoped Element
open Tensor

variable {α R : Type} [Element α] [CommRing R] {type : StorageType}
variable {ρ : Element.Reading α R type} {contribution : Contribution α} {shape : List Nat}
variable {amount : List Nat → R}

/-- A gradient that is read is a contribution. -/
theorem Holds.asDense {u : Tensor α} (holds : ρ.Holds u) {gradient : Except Fault (Tensor α)}
    (made : gradient = .ok u) : Operator.asDense gradient = .ok (.dense u) :=
  bind_eq_ok.mpr ⟨u, made, bind_eq_ok.mpr ⟨u, holds.sound, rfl⟩⟩

/-- A contribution adds an amount at every place of every buffer of some extents. -/
def Adds (ρ : Element.Reading α R type) (c : Contribution α) (shape : List Nat)
    (amount : List Nat → R) : Prop :=
  ∀ target : Tensor α, target.shape = shape → ρ.Holds target →
    ∃ t, c.addTo target = .ok t ∧ t.shape = shape ∧ ρ.Holds t ∧
      ∀ p ∈ positions shape, ρ.entry t p = ρ.entry target p + amount p

/-- What is added is only looked at inside the buffer. -/
theorem Adds.congr {amount' : List Nat → R} (adds : ρ.Adds contribution shape amount)
    (same : ∀ p ∈ positions shape, amount p = amount' p) :
    ρ.Adds contribution shape amount' := by
  intro target extents buffer
  obtain ⟨t, added, extents', holds, entries⟩ := adds target extents buffer
  exact ⟨t, added, extents', holds, fun p inside => same p inside ▸ entries p inside⟩

/-- A gradient adds at each place the sum over the positions that read it. -/
theorem adds_dense {c : Tensor α} (holds : ρ.Holds c) (positive : ∀ e ∈ c.shape, 0 < e)
    (fits : Fits shape c.shape) : ρ.Adds (.dense c) shape fun p =>
      ∑ q ∈ places c.shape with Tensor.clamp shape q = p, ρ.entry c q := by
  rintro target rfl buffer
  obtain ⟨u, summed, extents, collapses⟩ := unbroadcast holds (.inl positive) fits
  have added : ∀ p ∈ positions target.shape,
      ρ.carrier (target.get p + Element.like (target.get p) (u.get p)) ∧
        ρ.val (target.get p + Element.like (target.get p) (u.get p)) =
          ρ.entry target p + ρ.entry u p := by
    intro p inside
    obtain ⟨kept, same⟩ := ρ.like (buffer p inside) (collapses.holds p (extents ▸ inside))
    obtain ⟨sum, total⟩ := ρ.add (buffer p inside) kept
    exact ⟨sum, by rw [total, same, entry, entry]⟩
  refine ⟨target.zipWith (fun x y => x + Element.like x y) u, ?_, rfl,
    holds_ofFn fun p inside => (added p inside).1, fun p inside => ?_⟩
  · rw [Contribution.addTo, Tensor.accumulate, summed]
    rfl
  · rw [zipWith, entry_ofFn inside, (added p inside).2, collapses.entry p (extents ▸ inside)]

/-- A gradient of the extents of the buffer is added as it is. -/
theorem adds_same {c : Tensor α} (holds : ρ.Holds c) (positive : ∀ e ∈ c.shape, 0 < e) :
    ρ.Adds (.dense c) c.shape (ρ.entry c) := by
  refine (adds_dense holds positive (.refl c.shape)).congr fun p inside => ?_
  refine sum_only inside (fun q here => ?_) _
  rw [clamp_self here]

/-- An array added to a buffer adds its products with the directions of the buffer. -/
theorem accumulate {target c : Tensor α} (holds : ρ.Holds target) (addend : ρ.Holds c)
    (positive : ∀ e ∈ c.shape, 0 < e) (fits : Fits target.shape c.shape) :
    ∃ t, target.accumulate c = .ok t ∧ t.shape = target.shape ∧ ρ.Holds t ∧
      ∀ d : Tensor α, d.shape = target.shape → ρ.pairing t d =
        ρ.pairing target d + ∑ q ∈ places c.shape, ρ.entry c q * ρ.val (d.read q) := by
  obtain ⟨t, added, extents, sum, entries⟩ := adds_dense addend positive fits target rfl holds
  refine ⟨t, added, extents, sum, fun d same => ?_⟩
  have leads : ∀ q ∈ positions c.shape, Tensor.clamp target.shape q ∈ positions target.shape :=
    fun q inside => clamp_mem fits.broadcast (by simp) inside
  have products := sum_led leads (ρ.entry c) (ρ.entry d)
  rw [pairing, pairing, extents]
  calc ∑ p ∈ places target.shape, ρ.entry t p * ρ.entry d p
      = ∑ p ∈ places target.shape, (ρ.entry target p * ρ.entry d p +
          (∑ q ∈ places c.shape with Tensor.clamp target.shape q = p, ρ.entry c q) *
            ρ.entry d p) :=
        Finset.sum_congr rfl fun p mem => by rw [entries p (mem_places.mp mem), add_mul]
    _ = _ := by
        rw [Finset.sum_add_distrib, products, ← same]
        rfl

/-- A contribution adds to every buffer of some extents what is adjoint to a step that is taken
along a direction: its products with the direction are those of `g` with the result. -/
def AddsAdjoint (ρ : Element.Reading α R type) (c : Contribution α) (shape : List Nat)
    (g : Tensor α) (along : Tensor α → Except Fault (Tensor α)) : Prop :=
  ∀ target : Tensor α, target.shape = shape → ρ.Holds target →
    ∃ t, c.addTo target = .ok t ∧ t.shape = shape ∧ ρ.Holds t ∧
      ∀ d : Tensor α, d.shape = shape → ρ.Holds d → ∃ y, along d = .ok y ∧ y.shape = g.shape ∧
        ρ.pairing t d = ρ.pairing target d + ρ.pairing g y

/-- Contributions to two buffers of zeros: what the buffers then hold is adjoint to both steps. -/
theorem AddsAdjoint.both {c c' : Contribution α} {shape' : List Nat} {g : Tensor α}
    {along along' : Tensor α → Except Fault (Tensor α)} (first : ρ.AddsAdjoint c shape g along)
    (second : ρ.AddsAdjoint c' shape' g along') :
    ∃ t t', c.addTo (.full shape (Element.store type (Element.whole 0))) = .ok t ∧
      c'.addTo (.full shape' (Element.store type (Element.whole 0))) = .ok t' ∧
      t.shape = shape ∧ t'.shape = shape' ∧
      ∀ d d' : Tensor α, d.shape = shape → d'.shape = shape' → ρ.Holds d → ρ.Holds d' →
        ∃ y y', along d = .ok y ∧ along' d' = .ok y' ∧
          ρ.pairing g y + ρ.pairing g y' = ρ.pairing t d + ρ.pairing t' d' := by
  obtain ⟨t, added, extents, -, products⟩ := first _ rfl (holds_full ρ.zero.1 shape)
  obtain ⟨t', added', extents', -, products'⟩ := second _ rfl (holds_full ρ.zero.1 shape')
  refine ⟨t, t', added, added', extents, extents', fun d d' same same' holds holds' => ?_⟩
  obtain ⟨y, ran, _, paired⟩ := products d same holds
  obtain ⟨y', ran', _, paired'⟩ := products' d' same' holds'
  refine ⟨y, y', ran, ran', ?_⟩
  rw [paired, paired', pairing_zeros, pairing_zeros, zero_add, zero_add]

end Element.Reading

end ReverseMode
