import Xenon.Common.UriUtils

/-!
# Composing paths

`UriUtils.buildUriPath` of any segments, and what `getParentPath` and `getLastPathSegment` find in a
path. One segment and several are normalized by two routines, which part at the root.
-/

namespace Xenon.Common.UriUtils

/-- A segment of a path, or `null`. -/
abbrev Segment := Option (List Char)

/-- The text of a segment. The routines treat `null` as they treat an empty one. -/
def Segment.text (s : Segment) : List Char := s.getD []

/-- `buildUriPath`. -/
def buildUriPathOf (segments : List Segment) : List Char :=
  match segments with
  | [s] => normalizeUriPath s.text
  | segments => segments.foldl (fun sb s => normalizeUriPathTo s.text sb) []

/-- `getParentPath`. -/
def getParentPath (path : List Char) : Option (List Char) :=
  match lastIndexOf '/' path with
  | none => none
  | some parentPathIndex =>
      if parentPathIndex > 0 then some (path.take parentPathIndex)
      else if path.length > 1 then some ['/']
      else none

/-- `getLastPathSegment`, of a link that is not `null`. -/
def getLastPathSegment (link : List Char) : List Char :=
  if link.getLast? = some '/' then []
  else
    match lastIndexOf '/' link with
    | none => link
    | some i => link.drop (i + 1)

/-! ## What a segment adds -/

/-- What a segment adds to a path of several. -/
def added (s : List Char) : List Char := normalizeUriPathTo s []

/-- No two slashes meet. -/
def NoEmptyInterior (s : List Char) : Prop := ¬['/', '/'] <:+: s

section Added

variable {s t : List Char}

theorem normalizeUriPathTo_eq (s sb : List Char) : normalizeUriPathTo s sb = sb ++ added s := by
  unfold added normalizeUriPathTo
  by_cases hempty : s.isEmpty
  · rw [if_pos hempty, if_pos hempty, List.append_nil]
  · rw [if_neg hempty, if_neg hempty, List.nil_append]
    have hne : (if s.head? = some '/' then s else '/' :: s) ≠ [] := by
      split_ifs with hhead
      · rintro rfl
        cases hhead
      · exact List.cons_ne_nil _ _
    generalize (if s.head? = some '/' then s else '/' :: s) = t at hne ⊢
    dsimp only
    rw [List.getLast?_append_of_ne_nil _ hne]
    split_ifs
    · exact List.dropLast_append_of_ne_nil hne
    · rfl

theorem foldl_normalizeUriPathTo (segments : List Segment) (sb : List Char) :
    segments.foldl (fun sb s => normalizeUriPathTo s.text sb) sb =
      sb ++ segments.flatMap fun s => added s.text := by
  induction segments generalizing sb with
  | nil => exact (List.append_nil sb).symm
  | cons s segments ih =>
      rw [List.foldl_cons, ih, normalizeUriPathTo_eq, List.flatMap_cons, List.append_assoc]

/-- The two routines agree, but for the root. -/
theorem normalizeUriPath_eq (h : s ≠ ['/']) : normalizeUriPath s = added s := by
  unfold normalizeUriPath added normalizeUriPathTo
  by_cases hempty : s.isEmpty
  · rw [if_pos hempty, if_pos hempty]
    exact List.isEmpty_iff.mp hempty
  · rw [if_neg hempty, if_neg hempty, List.nil_append]
    rcases List.eq_nil_or_concat s with rfl | ⟨u, c, rfl⟩
    · exact absurd rfl hempty
    · by_cases hlast : c = '/'
      · subst hlast
        have hne : u ≠ [] := fun hu => h (by rw [hu]; rfl)
        simp only [List.concat_eq_append, List.getLast?_concat, if_true, List.dropLast_concat,
          List.head?_append_of_ne_nil _ hne]
        split_ifs with hhead hslash hslash
        · rw [List.dropLast_concat]
        · rw [List.getLast?_concat] at hslash
          exact absurd rfl hslash
        · rw [← List.cons_append, List.dropLast_concat]
        · rw [← List.cons_append, List.getLast?_concat] at hslash
          exact absurd rfl hslash
      · have hnot : (u ++ [c]).getLast? ≠ some '/' := by
          rw [List.getLast?_concat]
          exact fun heq => hlast (Option.some.inj heq)
        have hnot' : ('/' :: (u ++ [c])).getLast? ≠ some '/' := by
          rw [← List.cons_append, List.getLast?_concat]
          exact fun heq => hlast (Option.some.inj heq)
        simp only [List.concat_eq_append, if_neg hnot]
        split_ifs
        · rfl
        · rfl

/-- The root adds nothing. -/
theorem added_root : added ['/'] = [] := rfl

/-- A path that starts with a slash and does not end with one, or an empty one. -/
def Normal (s : List Char) : Prop := s = [] ∨ s.head? = some '/' ∧ s.getLast? ≠ some '/'

theorem Normal.added_eq (h : Normal s) : added s = s := by
  rcases h with rfl | ⟨hhead, hlast⟩
  · rfl
  · have hempty : s.isEmpty = false := by
      cases s with
      | nil => cases hhead
      | cons c s => rfl
    unfold added normalizeUriPathTo
    simp only [hempty, Bool.false_eq_true, if_false, if_pos hhead, List.nil_append, if_neg hlast]

theorem Normal.append (hs : Normal s) (ht : Normal t) : Normal (s ++ t) := by
  rcases ht with rfl | ⟨hhead, hlast⟩
  · rwa [List.append_nil]
  · have hne : t ≠ [] := by
      rintro rfl
      cases hhead
    refine .inr ⟨?_, by rwa [List.getLast?_append_of_ne_nil _ hne]⟩
    rcases hs with rfl | ⟨hshead, -⟩
    · exact hhead
    · rw [List.head?_append, hshead]
      rfl

/-- What a segment without an empty interior adds has no slash at its end. -/
theorem NoEmptyInterior.normal (h : NoEmptyInterior s) : Normal (added s) := by
  unfold added normalizeUriPathTo
  by_cases hempty : s.isEmpty
  · rw [if_pos hempty]
    exact .inl rfl
  · rw [if_neg hempty, List.nil_append]
    have hlead : ∃ t, (if s.head? = some '/' then s else '/' :: s) = '/' :: t ∧
        NoEmptyInterior ('/' :: t) := by
      cases s with
      | nil => exact absurd rfl hempty
      | cons c s =>
          by_cases hc : c = '/'
          · subst hc
            exact ⟨s, if_pos rfl, h⟩
          · refine ⟨c :: s, if_neg fun heq => hc (Option.some.inj heq), fun hinfix => ?_⟩
            rcases List.infix_cons_iff.mp hinfix with hpre | hinfix
            · exact hc (List.cons_prefix_cons.mp (List.cons_prefix_cons.mp hpre).2).1.symm
            · exact h hinfix
    obtain ⟨t, heq, ht⟩ := hlead
    rw [heq]
    dsimp only
    split_ifs with hlast
    · rcases List.eq_nil_or_concat t with rfl | ⟨u, c, rfl⟩
      · exact .inl rfl
      · rw [List.concat_eq_append, ← List.cons_append, List.getLast?_concat] at hlast
        obtain rfl : c = '/' := Option.some.inj hlast
        rw [List.concat_eq_append, ← List.cons_append, List.dropLast_concat]
        refine .inr ⟨rfl, fun hslash => ht ?_⟩
        obtain ⟨v, hv⟩ := List.getLast?_eq_some_iff.mp hslash
        rw [List.concat_eq_append, ← List.cons_append, hv, List.append_assoc]
        exact List.infix_append' v ['/', '/'] []
    · exact .inr ⟨rfl, hlast⟩

end Added

/-! ## Composition -/

section Composition

variable {segments bs : List Segment} {p id : List Char}

/-- A path of several segments, or of none. -/
theorem buildUriPathOf_eq (h : segments.length ≠ 1) :
    buildUriPathOf segments = segments.flatMap fun s => added s.text := by
  have hfold := foldl_normalizeUriPathTo segments []
  unfold buildUriPathOf
  split
  · exact absurd rfl h
  · exact hfold

theorem normal_flatMap (h : ∀ b ∈ bs, NoEmptyInterior b.text) :
    Normal (bs.flatMap fun b => added b.text) := by
  induction bs with
  | nil => exact .inl rfl
  | cons b bs ih =>
      obtain ⟨hb, hbs⟩ := List.forall_mem_cons.mp h
      rw [List.flatMap_cons]
      exact hb.normal.append (ih hbs)

/-- A path adds what its segments add. -/
theorem added_buildUriPathOf (h : ∀ b ∈ bs, NoEmptyInterior b.text) :
    added (buildUriPathOf bs) = bs.flatMap fun b => added b.text := by
  by_cases hlength : bs.length = 1
  · obtain ⟨b, rfl⟩ := List.length_eq_one_iff.mp hlength
    rw [List.flatMap_singleton]
    show added (normalizeUriPath b.text) = added b.text
    by_cases hroot : b.text = ['/']
    · rw [hroot]
      rfl
    · rw [normalizeUriPath_eq hroot]
      exact (h b (by simp)).normal.added_eq
  · rw [buildUriPathOf_eq hlength]
    exact (normal_flatMap h).added_eq

theorem normalizeUriPath_buildUriPathOf (h : ∀ b ∈ bs, NoEmptyInterior b.text) :
    normalizeUriPath (buildUriPathOf bs) = buildUriPathOf bs := by
  by_cases hroot : buildUriPathOf bs = ['/']
  · rw [hroot]
    rfl
  · rw [normalizeUriPath_eq hroot, added_buildUriPathOf h]
    by_cases hlength : bs.length = 1
    · obtain ⟨b, rfl⟩ := List.length_eq_one_iff.mp hlength
      rw [List.flatMap_singleton]
      refine (normalizeUriPath_eq fun hb => hroot ?_).symm
      show normalizeUriPath b.text = ['/']
      rw [hb]
      rfl
    · rw [buildUriPathOf_eq hlength]

/-- A path may be a segment of another in place of its own segments. -/
theorem buildUriPathOf_nested (as cs : List Segment) (hne : bs ≠ [])
    (h : ∀ b ∈ bs, NoEmptyInterior b.text) :
    buildUriPathOf (as ++ some (buildUriPathOf bs) :: cs) = buildUriPathOf (as ++ bs ++ cs) := by
  by_cases hnone : as = [] ∧ cs = []
  · obtain ⟨rfl, rfl⟩ := hnone
    rw [List.nil_append, List.nil_append, List.append_nil]
    exact normalizeUriPath_buildUriPathOf h
  · have hlength : as.length + cs.length ≠ 0 := by
      intro hzero
      exact hnone ⟨List.length_eq_zero_iff.mp (by omega), List.length_eq_zero_iff.mp (by omega)⟩
    have hbs := List.length_pos_of_ne_nil hne
    have houter : (as ++ some (buildUriPathOf bs) :: cs).length ≠ 1 := by
      rw [List.length_append, List.length_cons]
      omega
    have hflat : (as ++ bs ++ cs).length ≠ 1 := by
      rw [List.length_append, List.length_append]
      omega
    rw [buildUriPathOf_eq houter, buildUriPathOf_eq hflat, List.flatMap_append, List.flatMap_append, List.flatMap_append, List.flatMap_cons,
      List.append_assoc]
    show _ ++ (added (buildUriPathOf bs) ++ _) = _
    rw [added_buildUriPathOf h]

theorem buildUriPathOf_single_iff (s : Segment) :
    buildUriPathOf [s] = buildUriPathOf [s, some []] ↔ s.text ≠ ['/'] := by
  have hlength : [s, some []].length ≠ 1 := by simp
  rw [buildUriPathOf_eq hlength]
  show normalizeUriPath s.text = added s.text ++ ([] ++ []) ↔ _
  rw [List.append_nil, List.append_nil]
  refine ⟨fun heq hroot => ?_, normalizeUriPath_eq⟩
  rw [hroot] at heq
  cases heq

/-- The path of an id under a normalized one. -/
theorem buildUriPathOf_id (hid : id ≠ []) (hslash : '/' ∉ id) :
    buildUriPathOf [some p, some id] = added p ++ '/' :: id := by
  have hadded : added id = '/' :: id := by
    have hhead : id.head? ≠ some '/' := fun h => hslash (List.mem_of_head? h)
    have hlast : id.getLast? ≠ some '/' := fun h => hslash (List.mem_of_getLast? h)
    unfold added normalizeUriPathTo
    rw [if_neg (by rwa [List.isEmpty_iff]), if_neg hhead, List.nil_append]
    refine if_neg ?_
    rwa [List.getLast?_cons_of_ne_nil hid]
  rw [buildUriPathOf_eq (by simp)]
  show added p ++ (added id ++ []) = _
  rw [List.append_nil, hadded]

theorem added_of_normalized (h : normalizeUriPath p = p) (hroot : p ≠ ['/']) : added p = p := by
  rw [← normalizeUriPath_eq hroot, h]

theorem getParentPath_iff (hp : normalizeUriPath p = p) (hid : id ≠ []) (hslash : '/' ∉ id) :
    getParentPath (buildUriPathOf [some p, some id]) = some p ↔ p ≠ [] := by
  have hlength := List.length_pos_of_ne_nil hid
  rw [buildUriPathOf_id hid hslash]
  unfold getParentPath
  rw [lastIndexOf_append_cons hslash]
  dsimp only
  by_cases hroot : p = ['/']
  · subst hroot
    rw [added_root, if_neg (by simp), if_pos (by simpa using hlength)]
    simp
  · rw [added_of_normalized hp hroot]
    split_ifs with hpos hlong
    · rw [List.take_left]
      exact iff_of_true rfl (List.ne_nil_of_length_pos hpos)
    · have hnil : p = [] := List.length_eq_zero_iff.mp (by omega)
      rw [hnil]
      simp
    · refine absurd ?_ hlong
      rw [List.length_append, List.length_cons]
      omega

theorem getLastPathSegment_eq (hid : id ≠ []) (hslash : '/' ∉ id) :
    getLastPathSegment (buildUriPathOf [some p, some id]) = id := by
  rw [buildUriPathOf_id hid hslash]
  have hlast : (added p ++ '/' :: id).getLast? ≠ some '/' := by
    rw [List.getLast?_append_of_ne_nil _ (List.cons_ne_nil _ _), List.getLast?_cons_of_ne_nil hid]
    exact fun h => hslash (List.mem_of_getLast? h)
  unfold getLastPathSegment
  rw [if_neg hlast, lastIndexOf_append_cons hslash]
  show (added p ++ '/' :: id).drop ((added p).length + 1) = id
  rw [← List.drop_drop, List.drop_left]
  rfl

end Composition

/-- Paths compose, in whatever way their segments are grouped. One segment is normalized as it is
with an empty one after it, unless it is the root. The parent of an id under a normalized path is
that path, unless that is empty. -/
theorem buildUriPath_composes_iff (as bs cs : List Segment) (a b c s : Segment)
    (p id : List Char) :
    (bs ≠ [] → (∀ b ∈ bs, NoEmptyInterior b.text) →
      buildUriPathOf (as ++ some (buildUriPathOf bs) :: cs) = buildUriPathOf (as ++ bs ++ cs)) ∧
    (NoEmptyInterior a.text → NoEmptyInterior b.text → NoEmptyInterior c.text →
      buildUriPathOf [some (buildUriPathOf [a, b]), c] = buildUriPathOf [a, b, c] ∧
        buildUriPathOf [a, some (buildUriPathOf [b, c])] = buildUriPathOf [a, b, c]) ∧
    (buildUriPathOf [s] = buildUriPathOf [s, some []] ↔ s.text ≠ ['/']) ∧
    (normalizeUriPath p = p → id ≠ [] → '/' ∉ id →
      (getParentPath (buildUriPathOf [some p, some id]) = some p ↔ p ≠ []) ∧
        getLastPathSegment (buildUriPathOf [some p, some id]) = id) := by
  refine ⟨buildUriPathOf_nested as cs, fun ha hb hc => ⟨?_, ?_⟩, buildUriPathOf_single_iff s,
    fun hp hid hslash => ⟨getParentPath_iff hp hid hslash, getLastPathSegment_eq hid hslash⟩⟩
  · exact buildUriPathOf_nested [] [c] (List.cons_ne_nil _ _) (by simp [ha, hb])
  · exact buildUriPathOf_nested [a] [] (List.cons_ne_nil _ _) (by simp [hb, hc])

/-- The root is a path by itself, and nothing before an empty segment. -/
theorem root_alone : buildUriPathOf [some ['/']] = ['/'] ∧
    buildUriPathOf [some ['/'], some []] = [] ∧ NoEmptyInterior ['/'] := by
  refine ⟨rfl, rfl, ?_⟩
  unfold NoEmptyInterior
  decide

end Xenon.Common.UriUtils
