import Orengine.Lib.Segments

/-!
# Decoding with replacement characters

`toStringLossy` replaces each maximal sequence of bytes that begins a character of UTF-8 and is not
one by the replacement character, as the standard library of the source does.  The result begins
with the bytes, or it parts from them where the first one is replaced (`prefix_or_partAt`).
-/

namespace Orengine.Lib.Utf8

/-- The replacement character. -/
def replacement : List UInt8 := [0xEF, 0xBF, 0xBD]

/-- How many bytes a character has that begins with this one; 0 if none does. -/
def width (b : UInt8) : ℕ :=
  if b < 0x80 then 1
  else if b < 0xC2 then 0
  else if b < 0xE0 then 2
  else if b < 0xF0 then 3
  else if b < 0xF5 then 4
  else 0

/-- Whether a byte can be the second one of a character. -/
def isSecond (lead b : UInt8) : Bool :=
  (if lead = 0xE0 then 0xA0 else if lead = 0xF0 then 0x90 else 0x80) ≤ b &&
    b ≤ (if lead = 0xED then 0x9F else if lead = 0xF4 then 0x8F else 0xBF)

/-- Whether a byte can stand behind the first bytes of a character. -/
def continues : List UInt8 → UInt8 → Bool
  | [], _ => false
  | [lead], b => isSecond lead b
  | _ :: _ :: _, b => 0x80 ≤ b && b ≤ 0xBF

/-- The width of the character that is begun. -/
def pendingWidth : List UInt8 → ℕ
  | [] => 0
  | lead :: _ => width lead

/-- `toStringLossy`, behind the first bytes of a character. -/
def lossyFrom : List UInt8 → List UInt8 → List UInt8
  | [], [] => []
  | _ :: _, [] => replacement
  | pending, b :: rest =>
    if continues pending b then
      if pending.length + 1 = pendingWidth pending then pending ++ b :: lossyFrom [] rest
      else lossyFrom (pending ++ [b]) rest
    else
      (if pending = [] then [] else replacement) ++
        if width b = 1 then b :: lossyFrom [] rest
        else if width b = 0 then replacement ++ lossyFrom [] rest
        else lossyFrom [b] rest

def toStringLossy (bytes : List UInt8) : List UInt8 := lossyFrom [] bytes

section Prefix

variable {sep : UInt8}

theorem lossyFrom_cons (pending : List UInt8) (b : UInt8) (rest : List UInt8) :
    lossyFrom pending (b :: rest) =
      if continues pending b then
        if pending.length + 1 = pendingWidth pending then pending ++ b :: lossyFrom [] rest
        else lossyFrom (pending ++ [b]) rest
      else
        (if pending = [] then [] else replacement) ++
          if width b = 1 then b :: lossyFrom [] rest
          else if width b = 0 then replacement ++ lossyFrom [] rest
          else lossyFrom [b] rest := by
  cases pending <;> rfl

/-- The first bytes of a character, and more of it is to come. -/
structure Pending (pending : List UInt8) : Prop where
  two_le : 2 ≤ pendingWidth pending
  length_lt : pending.length < pendingWidth pending

theorem Pending.ne_nil {pending : List UInt8} (h : Pending pending) : pending ≠ [] := by
  rintro rfl
  exact absurd h.two_le (by decide)

theorem Pending.append {pending : List UInt8} (h : Pending pending)
    (hlength : pending.length + 1 ≠ pendingWidth pending) (b : UInt8) :
    Pending (pending ++ [b]) := by
  obtain ⟨p, ps, rfl⟩ := List.exists_cons_of_ne_nil h.ne_nil
  refine ⟨h.two_le, ?_⟩
  have hlt := h.length_lt
  rw [List.length_append, List.length_singleton]
  show _ < pendingWidth (p :: ps)
  omega

theorem width_eq_one (hsep : sep < 0x80) : width sep = 1 := if_pos hsep

/-- A byte that is not the first one of the replacement character parts from it, unless it is a
character. -/
theorem partAt_of_ne {b : UInt8} (hsep : sep < 0x80) (hne : b ≠ 0xEF) (hwidth : width b ≠ 1)
    (l m : List UInt8) : PartAt sep [] (replacement ++ l) (b :: m) := by
  refine ⟨0xEF, [0xBF, 0xBD] ++ l, b, m, rfl, rfl, ?_, hne.symm, ?_⟩
  · rintro rfl
    exact absurd hsep (by decide)
  · rintro rfl
    exact absurd (width_eq_one hsep) hwidth

/-- So does what stands at the place of the second byte. -/
theorem partAt_second_of_ne {b : UInt8} (hsep : sep < 0x80) (hne : b ≠ 0xBF) (l m : List UInt8) :
    PartAt sep [0xEF] (replacement ++ l) (0xEF :: b :: m) := by
  refine ⟨0xBF, [0xBD] ++ l, b, m, rfl, rfl, ?_, hne.symm, fun _ => ⟨List.cons_ne_nil _ _, ?_⟩⟩
  · rintro rfl
    exact absurd hsep (by decide)
  · rintro ⟨⟩
    exact absurd hsep (by decide)

/-- So does what stands at the place of the third byte. -/
theorem partAt_third_of_ne {b : UInt8} (hsep : sep < 0x80) (hne : b ≠ 0xBD) (l m : List UInt8) :
    PartAt sep [0xEF, 0xBF] (replacement ++ l) (0xEF :: 0xBF :: b :: m) := by
  refine ⟨0xBD, l, b, m, rfl, rfl, ?_, hne.symm, fun _ => ⟨List.cons_ne_nil _ _, ?_⟩⟩
  · rintro rfl
    exact absurd hsep (by decide)
  · rintro ⟨⟩
    exact absurd hsep (by decide)

/-- A character that breaks off parts from its replacement, unless the input ends before. -/
theorem prefix_or_partAt_of_broken {pending rest : List UInt8} (hsep : sep < 0x80)
    (hpending : Pending pending) (hrest : ∀ b, rest.head? = some b → continues pending b = false)
    (l : List UInt8) : pending ++ rest <+: replacement ++ l ∨
      ∃ c, PartAt sep c (replacement ++ l) (pending ++ rest) := by
  obtain ⟨htwo, hlength⟩ := hpending
  cases pending with
  | nil => exact absurd htwo (by decide)
  | cons p pending =>
    by_cases hp : p = 0xEF
    · subst hp
      cases pending with
      | nil =>
        cases rest with
        | nil => exact .inl ⟨[0xBF, 0xBD] ++ l, rfl⟩
        | cons b rest =>
          refine .inr ⟨_, partAt_second_of_ne hsep ?_ l rest⟩
          rintro rfl
          exact absurd (hrest _ rfl) (by decide)
      | cons q pending =>
        by_cases hq : q = 0xBF
        · subst hq
          cases pending with
          | nil =>
            cases rest with
            | nil => exact .inl ⟨[0xBD] ++ l, rfl⟩
            | cons b rest =>
              refine .inr ⟨_, partAt_third_of_ne hsep ?_ l rest⟩
              rintro rfl
              exact absurd (hrest _ rfl) (by decide)
          | cons r pending =>
            -- Three bytes were a whole character.
            have hwidth : width 0xEF = 3 := by decide
            rw [pendingWidth, hwidth] at hlength
            simp only [List.length_cons] at hlength
            omega
        · exact .inr ⟨_, partAt_second_of_ne hsep hq l (pending ++ rest)⟩
    · refine .inr ⟨_, partAt_of_ne hsep hp ?_ l (pending ++ rest)⟩
      exact fun h => absurd htwo (by rw [pendingWidth, h]; decide)

theorem prefix_or_partAt_lossyFrom (hsep : sep < 0x80) (pending rest : List UInt8)
    (hpending : pending = [] ∨ Pending pending) :
    pending ++ rest <+: lossyFrom pending rest ∨
      ∃ c, PartAt sep c (lossyFrom pending rest) (pending ++ rest) := by
  -- What is the same so far stays in front.
  have hfront (u : List UInt8) {l m : List UInt8} (h : m <+: l ∨ ∃ c, PartAt sep c l m) :
      u ++ m <+: u ++ l ∨ ∃ c, PartAt sep c (u ++ l) (u ++ m) := by
    rcases h with h | ⟨c, h⟩
    · exact .inl ((List.prefix_append_right_inj u).mpr h)
    · exact .inr ⟨_, h.append_left u⟩
  induction rest generalizing pending with
  | nil =>
    rcases hpending with rfl | hpending
    · exact .inl (List.prefix_refl _)
    · obtain ⟨p, ps, rfl⟩ := List.exists_cons_of_ne_nil hpending.ne_nil
      refine prefix_or_partAt_of_broken hsep hpending ?_ []
      intro b hb
      cases hb
  | cons b rest ih =>
    rw [lossyFrom_cons]
    split
    case isTrue hcontinues =>
      have hp : Pending pending := hpending.resolve_left (by rintro rfl; cases hcontinues)
      split
      case isTrue =>
        have h := hfront (pending ++ [b]) (ih [] (.inl rfl))
        simpa using h
      case isFalse hlength =>
        have h := ih (pending ++ [b]) (.inr (hp.append hlength b))
        simpa using h
    case isFalse hbroken =>
      rcases hpending with rfl | hpending
      · rw [if_pos rfl, List.nil_append, List.nil_append]
        split
        case isTrue => exact hfront [b] (ih [] (.inl rfl))
        case isFalse hone =>
          split
          case isTrue hzero =>
            refine .inr ⟨_, partAt_of_ne hsep ?_ hone _ _⟩
            rintro rfl
            exact absurd hzero (by decide)
          case isFalse hzero =>
            refine ih [b] (.inr ⟨?_, ?_⟩)
            · show 2 ≤ width b
              omega
            · show 1 < width b
              omega
      · rw [if_neg hpending.ne_nil]
        refine prefix_or_partAt_of_broken hsep hpending ?_ _
        rintro _ ⟨⟩
        exact Bool.eq_false_iff.mpr hbroken

/-- **The result begins with the bytes**, or parts from them within a segment. -/
theorem prefix_or_partAt (hsep : sep < 0x80) (bytes : List UInt8) :
    bytes <+: toStringLossy bytes ∨ ∃ c, PartAt sep c (toStringLossy bytes) bytes :=
  prefix_or_partAt_lossyFrom hsep [] bytes (.inl rfl)

end Prefix

end Orengine.Lib.Utf8
