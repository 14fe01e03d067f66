import Mathlib.Logic.Function.Basic

/-!
# Partial maps on top of each other

A layer hides what is below it where it is defined. Whoever writes only places of
the layer can be interrupted and begun again: the whole layer on top of what is left
is the whole layer on top of what was there before.
-/

namespace WinBlaze

namespace Overlay

variable {α β : Type*}

def overlay (layer base : α → Option β) : α → Option β := fun place ↦ (layer place).or (base place)

theorem overlay_of_none {layer base : α → Option β} {place : α} (h : layer place = none) :
    overlay layer base place = base place := by
  simp only [overlay, h, Option.none_or]

theorem overlay_of_some {layer base : α → Option β} {place : α} {value : β}
    (h : layer place = some value) : overlay layer base place = some value := by
  simp only [overlay, h, Option.some_or]

/-- What the part has, the layer has too. -/
def Part (part layer : α → Option β) : Prop :=
  ∀ place value, part place = some value → layer place = some value

theorem Part.refl (layer : α → Option β) : Part layer layer := fun _ _ h ↦ h

/-- Two parts that make up the layer can be laid one after the other. -/
theorem overlay_overlay_of_parts {first second layer : α → Option β} (hfirst : Part first layer)
    (hsecond : Part second layer) (hcover : ∀ place value, layer place = some value →
      first place = some value ∨ second place = some value) (base : α → Option β) :
    overlay second (overlay first base) = overlay layer base := by
  funext place
  cases hsecondvalue : second place with
  | some value => rw [overlay_of_some hsecondvalue, overlay_of_some (hsecond place value hsecondvalue)]
  | none =>
      rw [overlay_of_none hsecondvalue]
      cases hfirstvalue : first place with
      | some value => rw [overlay_of_some hfirstvalue, overlay_of_some (hfirst place value hfirstvalue)]
      | none =>
          rw [overlay_of_none hfirstvalue]
          cases hlayer : layer place with
          | none => rw [overlay_of_none hlayer]
          | some value =>
              rcases hcover place value hlayer with h | h
              · simp [hfirstvalue] at h
              · simp [hsecondvalue] at h

/-- Nothing has changed but at places of the layer. -/
def Within (layer base after : α → Option β) : Prop :=
  ∀ place, layer place = none → after place = base place

theorem Part.within {part layer : α → Option β} (h : Part part layer) (base : α → Option β) :
    Within layer base (overlay part base) := by
  intro place hplace
  cases hpart : part place with
  | none => exact overlay_of_none hpart
  | some value => simp [h place value hpart] at hplace

/-- What was written before is hidden. -/
theorem Within.overlay_eq {layer base after : α → Option β} (h : Within layer base after) :
    overlay layer after = overlay layer base := by
  funext place
  cases hplace : layer place with
  | some value => rw [overlay_of_some hplace, overlay_of_some hplace]
  | none => rw [overlay_of_none hplace, overlay_of_none hplace, h place hplace]

section Mixed

variable {like : β → β → Prop} {broken : List α} {layer base after : α → Option β}

/-- What is there is like what the layer has in the same place. -/
def Fits (like : β → β → Prop) (layer base : α → Option β) : Prop :=
  ∀ place value found, layer place = some value → base place = some found → like found value

/-- Every place is as it was or as in the layer, apart from some that are broken, and what
is broken is still like it is in the layer. -/
def Mixed (like : β → β → Prop) (broken : List α) (layer base after : α → Option β) : Prop :=
  ∀ place, after place = base place ∨ ∃ value written, layer place = some value ∧
    after place = some written ∧ like written value ∧ (place ∉ broken → written = value)

theorem Mixed.refl (like : β → β → Prop) (broken : List α) (layer base : α → Option β) :
    Mixed like broken layer base base := fun _ ↦ Or.inl rfl

theorem Mixed.within (h : Mixed like broken layer base after) : Within layer base after := by
  intro place hplace
  rcases h place with h | ⟨value, written, hlayer, -⟩
  · exact h
  · simp [hplace] at hlayer

theorem mixed_overlay (hlike : ∀ value, like value value) (broken : List α)
    (layer base : α → Option β) : Mixed like broken layer base (overlay layer base) := by
  intro place
  cases hvalue : layer place with
  | none => exact Or.inl (overlay_of_none hvalue)
  | some value => exact Or.inr ⟨value, value, rfl, overlay_of_some hvalue, hlike value, fun _ ↦ rfl⟩

/-- What is broken adds up. -/
theorem Mixed.trans {later : List α} {middle : α → Option β}
    (h : Mixed like broken layer base middle) (hnext : Mixed like later layer middle after) :
    Mixed like (broken ++ later) layer base after := by
  intro place
  rcases hnext place with hkept | ⟨value, written, hvalue, hwritten, hlike, hwhole⟩
  · rcases h place with hbase | ⟨value, written, hvalue, hwritten, hlike, hwhole⟩
    · exact Or.inl (hkept.trans hbase)
    · refine Or.inr ⟨value, written, hvalue, hkept.trans hwritten, hlike, fun hplace ↦ ?_⟩
      exact hwhole fun hbroken ↦ hplace (List.mem_append_left _ hbroken)
  · refine Or.inr ⟨value, written, hvalue, hwritten, hlike, fun hplace ↦ ?_⟩
    exact hwhole fun hbroken ↦ hplace (List.mem_append_right _ hbroken)

theorem Mixed.fits (h : Mixed like broken layer base after) (hfits : Fits like layer base) :
    Fits like layer after := by
  intro place value found hvalue hfound
  rcases h place with h | ⟨value', written, hlayer, hwritten, hlike, -⟩
  · exact hfits place value found hvalue (h ▸ hfound)
  · obtain rfl : value' = value := Option.some.inj (hlayer.symm.trans hvalue)
    obtain rfl : written = found := Option.some.inj (hwritten.symm.trans hfound)
    exact hlike

theorem Fits.overlay (hlike : ∀ value, like value value) {part : α → Option β} (hpart : Part part layer)
    (h : Fits like layer base) : Fits like layer (overlay part base) := by
  intro place value found hvalue hfound
  cases hplace : part place with
  | none => exact h place value found hvalue ((overlay_of_none hplace).symm.trans hfound)
  | some written =>
      obtain rfl : written = value := Option.some.inj ((hpart place written hplace).symm.trans hvalue)
      obtain rfl : written = found := Option.some.inj ((overlay_of_some hplace).symm.trans hfound)
      exact hlike written

theorem Fits.mono {part : α → Option β} (hpart : Part part layer) (h : Fits like layer base) :
    Fits like part base := fun place value found hvalue hfound ↦
  h place value found (hpart place value hvalue) hfound

/-- A part of a layer that was written wholly, and then some of another part. -/
theorem Mixed.after_overlay (hlike : ∀ value, like value value) {first second : α → Option β}
    (hfirst : Part first layer) (hsecond : Part second layer)
    (h : Mixed like broken second (overlay first base) after) : Mixed like broken layer base after := by
  intro place
  rcases h place with h | ⟨value, written, hvalue, hplace⟩
  · cases hvalue : first place with
    | none => exact Or.inl (h.trans (overlay_of_none hvalue))
    | some value =>
        have hafter : after place = some value := h.trans (overlay_of_some hvalue)
        exact Or.inr ⟨value, value, hfirst place value hvalue, hafter, hlike value, fun _ ↦ rfl⟩
  · exact Or.inr ⟨value, written, hsecond place value hvalue, hplace⟩

theorem Mixed.mono {part : α → Option β} (hpart : Part part layer)
    (h : Mixed like broken part base after) : Mixed like broken layer base after := by
  intro place
  rcases h place with h | ⟨value, written, hvalue, hplace⟩
  · exact Or.inl h
  · exact Or.inr ⟨value, written, hpart place value hvalue, hplace⟩

end Mixed

end Overlay

end WinBlaze
