import Mathlib.Data.List.Basic

/-!
# Parts that are read one after the other

An object is written part by part, with nothing between the codes of two parts. What is written
determines the parts when each part is determined by its own codes, and no codes can be moved from
the end of a part to the beginning of the parts after it.
-/

namespace Xenon.Foundation.Concatenation

variable {ι δ α : Type*}

section

variable (encode : ι → δ → List α)

/-- The codes of some of the parts. -/
def read (parts : List ι) (x : δ) : List α := parts.flatMap fun i => encode i x

/-- Some codes can end a part or begin the parts after it. -/
def Overlaps (i : ι) (post : List ι) : Prop :=
  ∃ codes, codes ≠ [] ∧ (∃ x y, encode i y = encode i x ++ codes) ∧
    ∃ x y, read encode post x = codes ++ read encode post y

variable (same : ι → δ → δ → Prop)

/-- The codes of a part tell whether it is the same. -/
def ToldApart (i : ι) : Prop := ∀ x y, encode i x = encode i y → same i x y

/-- The codes of all parts tell whether each is the same. -/
def Determines (parts : List ι) : Prop :=
  ∀ x y, read encode parts x = read encode parts y → ∀ i ∈ parts, same i x y

/-- Equal parts have equal codes, and the first parts of an object go with the last ones of any
other. -/
structure Mixes (parts : List ι) : Prop where
  equivalence : ∀ i, Equivalence (same i)
  encode_eq : ∀ {i x y}, same i x y → encode i x = encode i y
  mix : ∀ pre post, parts = pre ++ post → ∀ x y,
    ∃ z, (∀ i ∈ pre, same i z x) ∧ ∀ i ∈ post, same i z y

end

variable {encode : ι → δ → List α} {same : ι → δ → δ → Prop} {parts pre post : List ι} {i : ι}
  {x y : δ}

theorem read_cons : read encode (i :: parts) x = encode i x ++ read encode parts x :=
  List.flatMap_cons

theorem read_append :
    read encode (pre ++ post) x = read encode pre x ++ read encode post x :=
  List.flatMap_append

theorem read_congr (h : ∀ i ∈ parts, encode i x = encode i y) :
    read encode parts x = read encode parts y :=
  List.flatMap_congr h

/-- Two ends of a list meet where nothing can be moved from one to the other. -/
theorem append_inj_of_forall {a a' r r' : List α} (h : a ++ r = a' ++ r')
    (hleft : ∀ w, a' = a ++ w → r = w ++ r' → w = [])
    (hright : ∀ w, a = a' ++ w → r' = w ++ r → w = []) : a = a' ∧ r = r' := by
  rcases List.append_eq_append_iff.mp h with ⟨w, ha, hr⟩ | ⟨w, ha, hr⟩
  · obtain rfl := hleft w ha hr
    exact ⟨(ha.trans (List.append_nil a)).symm, hr⟩
  · obtain rfl := hright w ha hr
    exact ⟨ha.trans (List.append_nil a'), hr.symm⟩

/-- Parts that are told apart one by one are told apart together. -/
theorem Determines.of_forall (h : ∀ pre i post, parts = pre ++ i :: post →
      ToldApart encode same i ∧ ¬Overlaps encode i post) : Determines encode same parts := by
  induction parts with
  | nil => exact fun _ _ _ => nofun
  | cons i parts ih =>
      obtain ⟨htold, hoverlap⟩ := h [] i parts rfl
      intro x y hread
      rw [read_cons, read_cons] at hread
      have hnil : ∀ x y w, encode i y = encode i x ++ w →
          read encode parts x = w ++ read encode parts y → w = [] := by
        intro x y w hi hparts
        by_contra hne
        exact hoverlap ⟨w, hne, ⟨x, y, hi⟩, x, y, hparts⟩
      obtain ⟨hi, hparts⟩ := append_inj_of_forall hread (hnil x y) (hnil y x)
      exact List.forall_mem_cons.mpr ⟨htold x y hi,
        ih (fun pre j post heq => h (i :: pre) j post (by rw [heq, List.cons_append])) x y hparts⟩

namespace Mixes

/-- A part can be exchanged, and so can the ones after it. -/
theorem exists_mix (h : Mixes encode same (pre ++ i :: post)) (x y z : δ) :
    ∃ u, (∀ j ∈ pre, encode j u = encode j x) ∧ same i u y ∧
      ∀ j ∈ post, encode j u = encode j z := by
  obtain ⟨v, hpre, hrest⟩ := h.mix pre (i :: post) rfl x y
  obtain ⟨u, hinit, hpost⟩ := h.mix (pre ++ [i]) post (by simp) v z
  refine ⟨u, fun j hj => ?_, ?_, fun j hj => h.encode_eq (hpost j hj)⟩
  · exact (h.encode_eq (hinit j (by simp [hj]))).trans (h.encode_eq (hpre j hj))
  · exact (h.equivalence i).trans (hinit i (by simp)) (hrest i List.mem_cons_self)

theorem toldApart (h : Mixes encode same (pre ++ i :: post))
    (hdetermines : Determines encode same (pre ++ i :: post)) : ToldApart encode same i := by
  intro x y hcodes
  obtain ⟨u, hpre, hi, hpost⟩ := h.exists_mix x y x
  have hread : read encode (pre ++ i :: post) u = read encode (pre ++ i :: post) x := by
    rw [read_append, read_append, read_cons, read_cons, read_congr hpre, read_congr hpost,
      h.encode_eq hi, hcodes]
  have hsame := hdetermines u x hread i (by simp)
  exact (h.equivalence i).trans ((h.equivalence i).symm hsame) hi

theorem not_overlaps (h : Mixes encode same (pre ++ i :: post))
    (hdetermines : Determines encode same (pre ++ i :: post)) : ¬Overlaps encode i post := by
  rintro ⟨codes, hne, ⟨x, y, hi⟩, x', y', hparts⟩
  obtain ⟨u, hpreu, hiu, hpostu⟩ := h.exists_mix x x x'
  obtain ⟨v, hprev, hiv, hpostv⟩ := h.exists_mix x y y'
  have hread : read encode (pre ++ i :: post) u = read encode (pre ++ i :: post) v := by
    rw [read_append, read_append, read_cons, read_cons, read_congr hpreu, read_congr hprev,
      read_congr hpostu, read_congr hpostv, h.encode_eq hiu, h.encode_eq hiv, hi, hparts,
      List.append_assoc]
  have hcodes := h.encode_eq (hdetermines u v hread i (by simp))
  rw [h.encode_eq hiu, h.encode_eq hiv, hi] at hcodes
  exact hne (List.self_eq_append_right.mp hcodes)

/-- **When the codes determine the parts**. -/
theorem determines_iff (h : Mixes encode same parts) :
    Determines encode same parts ↔ ∀ pre i post, parts = pre ++ i :: post →
      ToldApart encode same i ∧ ¬Overlaps encode i post := by
  refine ⟨?_, Determines.of_forall⟩
  rintro hdetermines pre i post rfl
  exact ⟨h.toldApart hdetermines, h.not_overlaps hdetermines⟩

end Mixes

end Xenon.Foundation.Concatenation
