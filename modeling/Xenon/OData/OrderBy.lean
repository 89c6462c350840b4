import Xenon.Common.UriUtils
import Xenon.OData.Visitor

/-!
# `$orderby`

`UriUtils.getODataOrderByParamValue` takes the order of a query result from a parameter of the URI.
The keyword of the order is looked for, and taken out, anywhere in the parameter.
-/

namespace Xenon.OData

open Xenon.Common.UriUtils
open Xenon.Foundation.Text

/-- `UriUtils.ODataOrder`. -/
inductive ODataOrder where
  | ASC | DESC
  deriving DecidableEq

/-- `URI_PARAM_ODATA_ORDER_BY`. -/
def uriParamODataOrderBy : List Char := "$orderby".toList

/-- `URI_PARAM_ODATA_ORDER_BY_TYPE`. -/
def uriParamODataOrderByType : List Char := "$orderbytype".toList

/-- `URI_PARAM_ODATA_ORDER_BY_VALUE_ASC` and `URI_PARAM_ODATA_ORDER_BY_VALUE_DESC`. -/
def ODataOrder.value : ODataOrder → List Char
  | ASC => "asc".toList
  | DESC => "desc".toList

/-- `UriUtils.ODataOrderByTuple`. -/
structure ODataOrderByTuple where
  order : ODataOrder
  propertyName : List Char
  propertyType : Option (List Char)

/-- One of the encodings of a blank. -/
def encodedBlank : List Char := "0x20".toList

/-- What stands in the parameter, without the blanks. -/
def stripBlanks (paramValue : List Char) : List Char :=
  eraseAll encodedBlank 0 (((trim paramValue).filter (· ≠ '+')).filter (· ≠ ' '))

/-- The order of a parameter, and what is left when its keyword is taken out. -/
def takeOrder (paramValue : List Char) : Except String (ODataOrder × List Char) :=
  if ODataOrder.DESC.value <:+: paramValue then
    .ok (.DESC, eraseAll ODataOrder.DESC.value 0 paramValue)
  else if ODataOrder.ASC.value <:+: paramValue then
    .ok (.ASC, eraseAll ODataOrder.ASC.value 0 paramValue)
  else .error ("invalid expression: " ++ String.ofList paramValue)

/-- `getODataOrderByParamValue`. -/
def getODataOrderByParamValue (uri : Uri) : Except String (Option ODataOrderByTuple) :=
  let query := uri.query.getD []
  if query.isEmpty then .ok none
  else if ¬uriParamODataOrderBy <:+: query then .ok none
  else
    let queryParams := uri.params
    let paramValue := (queryParams.lookup uriParamODataOrderBy).getD []
    if paramValue.isEmpty then .ok none
    else do
      let (order, paramValue) ← takeOrder paramValue
      let orderByType := queryParams.lookup uriParamODataOrderByType
      .ok (some ⟨order, stripBlanks paramValue, orderByType.map trim⟩)

/-! ## Blanks -/

theorem trim_sublist (s : List Char) : List.Sublist (trim s) s :=
  (List.rdropWhile_prefix _ _).sublist.trans (List.dropWhile_suffix _).sublist

theorem length_stripBlanks_le (s : List Char) : (stripBlanks s).length ≤ s.length := by
  have hsub : List.Sublist (((trim s).filter (· ≠ '+')).filter (· ≠ ' ')) s :=
    (List.filter_sublist.trans List.filter_sublist).trans (trim_sublist s)
  have herase := length_eraseAll_le encodedBlank
    (((trim s).filter (· ≠ '+')).filter (· ≠ ' ')) 0
  exact herase.trans ((Nat.sub_le _ _).trans hsub.length_le)

theorem trim_eq_self {s : List Char} (hs : ∀ c ∈ s, ' ' < c) : trim s = s := by
  have hhead : s.dropWhile (· ≤ ' ') = s := by
    rw [List.dropWhile_eq_self_iff]
    intro hlength
    simpa using hs _ (List.getElem_mem hlength)
  have hlast : s.rdropWhile (· ≤ ' ') = s := by
    rw [List.rdropWhile_eq_self_iff]
    intro hne
    simpa using hs _ (List.getLast_mem hne)
  unfold trim
  rw [hhead, hlast]

theorem trim_concat {s : List Char} (hs : ∀ c ∈ s, ' ' < c) : trim (s ++ [' ']) = s := by
  cases s with
  | nil => rfl
  | cons c s =>
      have hc : ¬(c ≤ ' ') := Char.not_le.mpr (hs c List.mem_cons_self)
      have hhead : ∀ t : List Char, (c :: t).dropWhile (· ≤ ' ') = c :: t := fun t =>
        List.dropWhile_cons_of_neg (decide_eq_true_iff.not.mpr hc)
      have hself := trim_eq_self hs
      unfold trim at hself ⊢
      rw [hhead] at hself
      rw [List.cons_append, hhead, ← List.cons_append,
        List.rdropWhile_concat_pos _ _ _ (by decide), hself]

/-- A blank after a text without blanks is stripped. -/
theorem stripBlanks_append {s : List Char} {blank : Char} (hs : ∀ c ∈ s, ' ' < c ∧ c ≠ '+')
    (hblank : blank = ' ' ∨ blank = '+') :
    stripBlanks (s ++ [blank]) = eraseAll encodedBlank 0 s := by
  have hplus : s.filter (· ≠ '+') = s :=
    List.filter_eq_self.mpr fun c hc => decide_eq_true (hs c hc).2
  have hspace : s.filter (· ≠ ' ') = s :=
    List.filter_eq_self.mpr fun c hc => decide_eq_true fun heq =>
      absurd (heq ▸ (hs c hc).1) (by decide)
  unfold stripBlanks
  rcases hblank with rfl | rfl
  · rw [trim_concat fun c hc => (hs c hc).1, hplus, hspace]
  · have hvisible : ∀ c ∈ s ++ ['+'], ' ' < c := by
      intro c hc
      rcases List.mem_append.mp hc with hc | hc
      · exact (hs c hc).1
      · rw [List.mem_singleton.mp hc]
        decide
    rw [trim_eq_self hvisible, List.filter_append, hplus]
    show eraseAll encodedBlank 0 (List.filter _ (s ++ [])) = _
    rw [List.append_nil, hspace]

section Parsing

variable {uri : Uri} {p : List Char} {blank : Char} {order : ODataOrder}

/-- A parameter that is not empty is parsed. -/
theorem getODataOrderByParamValue_eq {value : List Char} (hne : value ≠ [])
    (h : uri.params.lookup uriParamODataOrderBy = some value) :
    getODataOrderByParamValue uri = (takeOrder value).map fun (order, paramValue) =>
      some ⟨order, stripBlanks paramValue,
        (uri.params.lookup uriParamODataOrderByType).map trim⟩ := by
  have hinfix := infix_of_mem_parseUriQueryParams (mem_of_lookup h)
  have hquery : uri.query.getD [] ≠ [] := by
    intro hempty
    rw [hempty, List.infix_nil] at hinfix
    exact absurd hinfix (by decide)
  unfold getODataOrderByParamValue
  simp only [List.isEmpty_iff, hquery, h, hinfix, hne, not_true, if_false, Option.getD_some]
  cases takeOrder value <;> rfl

/-- No keyword has a blank in it. -/
theorem not_mem_value (hblank : blank = ' ' ∨ blank = '+') (order : ODataOrder) :
    blank ∉ order.value := by
  rcases hblank with rfl | rfl <;> cases order <;> decide

theorem value_ne_nil (order : ODataOrder) : order.value ≠ [] := by
  cases order <;> decide

/-- A keyword is found in the property name, or where it is meant. -/
theorem value_infix_iff (hblank : blank = ' ' ∨ blank = '+') (order' : ODataOrder) :
    order'.value <:+: p ++ blank :: order.value ↔ order'.value <:+: p ∨ order' = order := by
  have hvalue : order'.value <:+: order.value ↔ order' = order := by
    cases order' <;> cases order <;> decide
  rw [infix_append_cons_iff (value_ne_nil order') (not_mem_value hblank order'), hvalue]

/-- The property name is kept if no keyword and no blank stands in it. -/
theorem stripBlanks_eraseAll_iff (hp : ∀ c ∈ p, ' ' < c ∧ c ≠ '+')
    (hblank : blank = ' ' ∨ blank = '+') (order : ODataOrder) :
    stripBlanks (eraseAll order.value 0 (p ++ blank :: order.value)) = p ↔
      ¬order.value <:+: p ∧ ¬encodedBlank <:+: p := by
  have hself : eraseAll order.value 0 order.value = [] := by
    cases order <;> decide
  have hlength : 3 ≤ order.value.length := by
    cases order <;> decide
  rw [eraseAll_append_cons (value_ne_nil order) (not_mem_value hblank order) (Nat.zero_le _), hself]
  by_cases hkeyword : order.value <:+: p
  · -- the keyword is longer than the blank
    have herase := length_eraseAll_add_le hkeyword
    have hstrip := length_stripBlanks_le (eraseAll order.value 0 p ++ [blank])
    rw [List.length_append, List.length_singleton] at hstrip
    refine ⟨fun heq => ?_, fun h => absurd hkeyword h.1⟩
    rw [heq] at hstrip
    omega
  · rw [eraseAll_eq_self hkeyword, stripBlanks_append hp hblank]
    refine ⟨fun heq => ⟨hkeyword, fun hencoded => ?_⟩, fun h => eraseAll_eq_self h.2⟩
    have hlt := length_eraseAll_add_le hencoded
    rw [heq] at hlt
    exact absurd hlt (by simp [encodedBlank])

theorem takeOrder_of_inside (h : ODataOrder.DESC.value <:+: p) :
    takeOrder (p ++ blank :: order.value) =
      .ok (.DESC, eraseAll ODataOrder.DESC.value 0 (p ++ blank :: order.value)) :=
  if_pos (h.trans (List.prefix_append _ _).isInfix)

theorem takeOrder_of_not_inside (hblank : blank = ' ' ∨ blank = '+')
    (h : ¬ODataOrder.DESC.value <:+: p) :
    takeOrder (p ++ blank :: order.value) =
      .ok (order, eraseAll order.value 0 (p ++ blank :: order.value)) := by
  have hfound : order.value <:+: p ++ blank :: order.value :=
    (value_infix_iff hblank order).mpr (Or.inr rfl)
  unfold takeOrder
  cases order with
  | DESC => exact if_pos hfound
  | ASC =>
      have hnot : ¬ODataOrder.DESC.value <:+: p ++ blank :: ODataOrder.ASC.value := fun hinfix =>
        ((value_infix_iff hblank .DESC).mp hinfix).elim h (by decide)
      rw [if_neg hnot, if_pos hfound]

/-- The parameter is read as it is meant if no text in the property name is taken for a keyword or
a blank. -/
theorem getODataOrderByParamValue_iff (hp : ∀ c ∈ p, ' ' < c ∧ c ≠ '+')
    (hblank : blank = ' ' ∨ blank = '+')
    (h : uri.params.lookup uriParamODataOrderBy = some (p ++ blank :: order.value)) :
    (∃ tuple, getODataOrderByParamValue uri = .ok (some tuple) ∧ tuple.propertyName = p ∧
      tuple.order = order) ↔
    ¬ODataOrder.DESC.value <:+: p ∧ (order = .ASC → ¬ODataOrder.ASC.value <:+: p) ∧
      ¬encodedBlank <:+: p := by
  have hne : p ++ blank :: order.value ≠ [] := by simp
  rw [getODataOrderByParamValue_eq hne h]
  by_cases hdesc : ODataOrder.DESC.value <:+: p
  · rw [takeOrder_of_inside hdesc]
    refine ⟨?_, fun h => absurd hdesc h.1⟩
    rintro ⟨tuple, htuple, heq, horder⟩
    cases htuple
    have hdefault : ODataOrder.DESC = order := horder
    subst hdefault
    exact absurd hdesc ((stripBlanks_eraseAll_iff hp hblank _).mp heq).1
  · rw [takeOrder_of_not_inside hblank hdesc]
    have hname := stripBlanks_eraseAll_iff hp hblank order
    constructor
    · rintro ⟨tuple, htuple, heq, -⟩
      cases htuple
      obtain ⟨hkeyword, hencoded⟩ := hname.mp heq
      exact ⟨hdesc, fun horder => horder ▸ hkeyword, hencoded⟩
    · rintro ⟨-, hasc, hencoded⟩
      have hkeyword : ¬order.value <:+: p := by
        cases order with
        | ASC => exact hasc rfl
        | DESC => exact hdesc
      exact ⟨_, rfl, hname.mpr ⟨hkeyword, hencoded⟩, rfl⟩

end Parsing

/-- A URI of a host with a query. -/
def withQuery (query : List Char) : Uri :=
  ⟨"http".toList, none, "127.0.0.1".toList, 8000, "/core/examples".toList, some query, none⟩

theorem getODataOrderByParamValue_name :
    (∃ tuple, getODataOrderByParamValue (withQuery "$orderby=name+asc".toList) = .ok (some tuple) ∧
      tuple.propertyName = "name".toList ∧ tuple.order = .ASC) ↔
    ¬ODataOrder.DESC.value <:+: "name".toList ∧
      (ODataOrder.ASC = .ASC → ¬ODataOrder.ASC.value <:+: "name".toList) ∧
      ¬encodedBlank <:+: "name".toList := by
  have hname : "name".toList.all (fun c => ' ' < c && c ≠ '+') = true := by decide
  have hvisible : ∀ c ∈ "name".toList, ' ' < c ∧ c ≠ '+' := by
    simpa only [List.all_eq_true, Bool.and_eq_true, decide_eq_true_eq] using hname
  have hblank : '+' = ' ' ∨ '+' = '+' := Or.inr rfl
  exact getODataOrderByParamValue_iff hvisible hblank (by decide)

/-- A keyword in the property name is taken for the order. -/
theorem getODataOrderByParamValue_description :
    (withQuery "$orderby=description asc".toList).params.lookup uriParamODataOrderBy =
        some ("description".toList ++ ' ' :: ODataOrder.ASC.value) ∧
      ¬∃ tuple, getODataOrderByParamValue (withQuery "$orderby=description asc".toList) =
          .ok (some tuple) ∧
        tuple.propertyName = "description".toList ∧ tuple.order = .ASC := by
  refine ⟨by decide, ?_⟩
  rintro ⟨tuple, htuple, -, horder⟩
  have hread : getODataOrderByParamValue (withQuery "$orderby=description asc".toList) =
      .ok (some ⟨.DESC, "riptionasc".toList, none⟩) := rfl
  rw [hread] at htuple
  cases htuple
  cases horder

end Xenon.OData
