import Mathlib.Data.List.Nodup
import Mathlib.Algebra.Order.Ring.Int

/-!
# A cursor that walks a list from its end

The cursor is at an element with a property, and no element behind it has the property. The next
element is looked for before the cursor, and the list may lose elements while the cursor is used.
-/

namespace SpecDecode.Cursor

variable {α : Type} {P Q : α → Prop} {l l' : List α} {x z : α}

/-- Nothing behind the cursor has the property; at the end of the walk nothing has. -/
def Cleared (P : α → Prop) (l : List α) : Option α → Prop
  | none => ∀ v ∈ l, ¬ P v
  | some x => P x ∧ ∃ a b, l = a ++ x :: b ∧ ∀ v ∈ b, ¬ P v

theorem Cleared.holds (h : Cleared P l (some x)) : P x := h.1

theorem Cleared.mem (h : Cleared P l (some x)) : x ∈ l := by
  obtain ⟨_, a, b, rfl, _⟩ := h
  exact List.mem_append_right a List.mem_cons_self

theorem cleared_find (p : α → Bool) (l : List α) :
    Cleared (fun v => p v = true) l (l.reverse.find? p) := by
  cases hfind : l.reverse.find? p with
  | none =>
      intro v hv
      exact List.find?_eq_none.mp hfind v (List.mem_reverse.mpr hv)
  | some x =>
      obtain ⟨hx, b, a, hl, hb⟩ := List.find?_eq_some_iff_append.mp hfind
      refine ⟨hx, a.reverse, b.reverse, ?_, fun v hv => ?_⟩
      · have hl := congrArg List.reverse hl
        simpa using hl
      · simpa using hb v (List.mem_reverse.mp hv)

theorem Cleared.prev [DecidableEq α] {p : α → Bool} (hp : ∀ v, p v = true ↔ P v)
    (h : Cleared P l (some x)) (hnodup : l.Nodup) :
    Cleared (fun v => P v ∧ v ≠ x) l ((l.takeWhile (· ≠ x)).reverse.find? p) := by
  obtain ⟨_, a, b, rfl, hb⟩ := h
  obtain ⟨_, hxb, hdisjoint⟩ := List.nodup_append.mp hnodup
  have hxa : x ∉ a := fun hx => hdisjoint x hx x List.mem_cons_self rfl
  have htake : (a ++ x :: b).takeWhile (· ≠ x) = a := by
    rw [List.takeWhile_append_of_pos fun v hv => ?_]
    · rw [List.takeWhile_cons_of_neg (by simp), List.append_nil]
    · exact decide_eq_true fun heq => hxa (heq ▸ hv)
  rw [htake]
  have hfind := cleared_find p a
  cases hz : a.reverse.find? p with
  | none =>
      rw [hz] at hfind
      rintro v hv ⟨hPv, hvx⟩
      obtain hv | hv := List.mem_append.mp hv
      · exact hfind v hv ((hp v).mpr hPv)
      · exact hb v ((List.mem_cons.mp hv).resolve_left hvx) hPv
  | some z =>
      rw [hz] at hfind
      obtain ⟨hPz, a, c, rfl, hc⟩ := hfind
      refine ⟨⟨(hp z).mp hPz, fun heq => ?_⟩, a, c ++ x :: b, by simp, fun v hv => ?_⟩
      · exact hxa (heq ▸ List.mem_append_right a List.mem_cons_self)
      · rintro ⟨hPv, hvx⟩
        obtain hv | hv := List.mem_append.mp hv
        · exact hc v hv ((hp v).mpr hPv)
        · exact hb v ((List.mem_cons.mp hv).resolve_left hvx) hPv

theorem Cleared.sublist {y : Option α} (h : Cleared P l y) (hsub : l'.Sublist l) (hnodup : l.Nodup)
    (hkept : ∀ x, y = some x → x ∈ l' ∧ Q x) (hQ : ∀ v ∈ l', Q v → P v) : Cleared Q l' y := by
  cases y with
  | none => exact fun v hv hQv => h v (hsub.subset hv) (hQ v hv hQv)
  | some x =>
      obtain ⟨hx, hQx⟩ := hkept x rfl
      obtain ⟨_, a, b, rfl, hb⟩ := h
      obtain ⟨a', c', rfl, ha', hc'⟩ := List.sublist_append_iff.mp hsub
      obtain ⟨_, _, hdisjoint⟩ := List.nodup_append.mp hnodup
      have hxa : x ∉ a' := fun hmem => hdisjoint x (ha'.subset hmem) x List.mem_cons_self rfl
      have hxc : x ∈ c' := (List.mem_append.mp hx).resolve_left hxa
      obtain ⟨b', rfl, hb'⟩ : ∃ b', c' = x :: b' ∧ b'.Sublist b := by
        cases hc' with
        | cons _ hsub =>
            have hcons := (List.nodup_append.mp hnodup).2.1
            exact absurd (hsub.subset hxc) (List.nodup_cons.mp hcons).1
        | cons_cons _ hsub => exact ⟨_, rfl, hsub⟩
      refine ⟨hQx, a', b', rfl, fun v hv hQv => hb v (hb'.subset hv) (hQ v ?_ hQv)⟩
      exact List.mem_append_right a' (List.mem_cons_of_mem x hv)

end SpecDecode.Cursor
