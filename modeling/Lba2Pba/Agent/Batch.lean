import Lba2Pba.Agent.FileMap
import Lba2Pba.Py.Loop

/-!
# Many lookups in one call: `DBFileAgent.GetPba`

The answers of a batch are gathered in a list and become messages only when the
response is built. `getPba` has no answer for a file it does not know, which the
response does not take, and a batch without requests asks for a message class that
does not exist. `independent_iff` says which batches are answered request by request.
-/

namespace Lba2Pba.Agent

open Py

/-- `FAGetPbaRequest.Request`. -/
structure Request where
  fileName : String
  offset : I64
  length : I64
deriving DecidableEq

/-- `self.getPba(re.fileName, re.offset, re.length)`. -/
def Request.lookup (fm : List FilePBA) (re : Request) : Except Err (Option FilePBA) :=
  getPba re.fileName re.offset re.length fm

/-- An element of a repeated message field: `None` is no message. -/
def toMessage (element : Option FilePBA) : Except Err FilePBA :=
  match element with
  | some filePba => .ok filePba
  | none => .error .typeError

/-- `GetPba(request)`: the `filePba` of the response. The module has no
`FAGetPBaResponse`, the class that is named for an empty result. -/
def GetPba (fm : List FilePBA) (requests : List Request) : Except Err (List FilePBA) := do
  let result ← requests.mapM (Request.lookup fm)
  if result.isEmpty then .error .attributeError
  else result.mapM toMessage

/-! ## When `get` completes -/

theorem I64.assign_total {x : Int} (h : -2 ^ 63 ≤ x ∧ x < 2 ^ 63) : ∃ y, I64.assign x = .ok y :=
  ⟨_, dif_pos h⟩

theorem I64.assign_val {x : Int} {y : I64} (h : I64.assign x = .ok y) :
    y.val = x ∧ -2 ^ 63 ≤ x ∧ x < 2 ^ 63 := by
  unfold I64.assign at h
  split at h
  · rename_i hx
    cases h
    exact ⟨rfl, hx⟩
  · cases h

/-- The address in the first extent that is at least `o` long fits its field, and so
does what is taken of the extent. -/
def Addressable (o n : Int) (extents : List PBA) : Prop :=
  ∀ x ∈ (extents.dropWhile (Short o)).head?,
    (-2 ^ 63 ≤ x.offset.val + o ∧ x.offset.val + o < 2 ^ 63) ∧
      (o + n ≤ x.length.val ∨ x.length.val - o < 2 ^ 63)

instance (o n : Int) (extents : List PBA) : Decidable (Addressable o n extents) :=
  inferInstanceAs (Decidable (∀ _ ∈ _, _))

/-- After the first extent the loop completes: what is left of the length is positive,
so it fits where it is shorter than an extent. -/
theorem foldlM_started {o : Int} {st : GetState} (hs : st.startChk = true)
    (h : st.endChk = true ∨ 0 ≤ st.leftLen) (l : List PBA) :
    ∃ st', l.foldlM (getStep o) st = .ok st' := by
  obtain ⟨left, startChk, endChk, res⟩ := st
  cases hs
  cases endChk with
  | true => exact ⟨_, foldlM_done o left res l⟩
  | false =>
    obtain ⟨segs, -, he⟩ := foldlM_rest o left (by simpa using h) l res
    cases hr : l.foldlM (getStep o) ⟨left, true, false, res⟩ with
    | error e =>
      rw [hr] at he
      cases he
    | ok st' => exact ⟨st', rfl⟩

theorem getStep_first_inv {o n : Int} {x : PBA} {st : GetState} (hx : o ≤ x.length.val)
    (h : getStep o ⟨n, false, false, []⟩ x = .ok st) :
    (-2 ^ 63 ≤ x.offset.val + o ∧ x.offset.val + o < 2 ^ 63) ∧
      (o + n ≤ x.length.val ∨ x.length.val - o < 2 ^ 63) := by
  simp only [getStep, Bool.not_false, if_true, if_pos hx] at h
  obtain ⟨offset, hoff, h⟩ := bind_eq_ok.1 h
  obtain ⟨hval, hfit⟩ := I64.assign_val hoff
  refine ⟨hfit, ?_⟩
  split at h
  · left
    omega
  · obtain ⟨length, hlen, -⟩ := bind_eq_ok.1 h
    have := (I64.assign_val hlen).2
    right
    omega

theorem getStep_first_total {o : Int} {n : I64} {x : PBA} (hx : o ≤ x.length.val)
    (hfit : -2 ^ 63 ≤ x.offset.val + o ∧ x.offset.val + o < 2 ^ 63)
    (hcut : o + n.val ≤ x.length.val ∨ x.length.val - o < 2 ^ 63) :
    ∃ st, getStep o ⟨n, false, false, []⟩ x = .ok st ∧ st.startChk = true ∧
      (st.endChk = true ∨ 0 ≤ st.leftLen) := by
  obtain ⟨offset, hoff⟩ := I64.assign_total hfit
  have hval := (I64.assign_val hoff).1
  simp only [getStep, Bool.not_false, if_true, if_pos hx, hoff, bind, Except.bind]
  by_cases hend : offset.val + n.val ≤ x.offset.val + x.length.val
  · obtain ⟨length, hlen⟩ := I64.assign_total ⟨n.lo, n.hi⟩
    simp only [if_pos hend, hlen]
    exact ⟨_, rfl, rfl, .inl rfl⟩
  · have hpart : -2 ^ 63 ≤ x.offset.val + x.length.val - (x.offset.val + o) ∧
        x.offset.val + x.length.val - (x.offset.val + o) < 2 ^ 63 := by omega
    obtain ⟨length, hlen⟩ := I64.assign_total hpart
    have hl := (I64.assign_val hlen).1
    simp only [if_neg hend, hlen]
    refine ⟨_, rfl, rfl, .inr ?_⟩
    show 0 ≤ n.val - length.val
    omega

theorem get_total_iff (o n : I64) (l : List PBA) :
    (∃ segs, get o n l = .ok segs) ↔ Addressable o n l := by
  cases hdrop : l.dropWhile (Short o) with
  | nil =>
    refine ⟨fun _ => ?_, fun _ => ⟨[], get_nil hdrop⟩⟩
    rw [Addressable, hdrop]
    exact fun x hx => by cases hx
  | cons x post =>
    have hx := le_length_of_dropWhile hdrop
    have hget : get o n l = (do
        let st ← (x :: post).foldlM (getStep o) ⟨n, false, false, []⟩
        return st.result) := by
      rw [get, foldlM_short, hdrop]
    rw [hget, Addressable, hdrop]
    constructor
    · rintro ⟨segs, h⟩ y hy
      cases hy
      obtain ⟨st, hst, -⟩ := bind_eq_ok.1 h
      obtain ⟨st₁, hfirst, -⟩ := foldlM_cons_ok.1 hst
      exact getStep_first_inv hx hfirst
    · intro ha
      obtain ⟨hfit, hcut⟩ := ha x rfl
      obtain ⟨st₁, hfirst, hs, hleft⟩ := getStep_first_total hx hfit hcut
      obtain ⟨st, hrest⟩ := foldlM_started hs hleft post
      exact ⟨st.result, bind_eq_ok.2 ⟨st, foldlM_cons_ok.2 ⟨st₁, hfirst, hrest⟩, rfl⟩⟩

/-! ## When a request has an answer -/

/-- The extents that an answer is cut from. -/
def sources (f : FilePBA) : List (List PBA) :=
  if Str.isIn "Replicate" f.type then f.rPba.map ReplicaPba.pba else [f.pba]

theorem answer_total_iff (o n : I64) (f : FilePBA) :
    (∃ a, answer o n f = .ok a) ↔ ∀ extents ∈ sources f, Addressable o n extents := by
  have hbind : ∀ {α β : Type} {x : Except Err α} {k : α → β},
      (∃ b, (do let a ← x; return k a : Except Err β) = .ok b) ↔ ∃ a, x = .ok a := by
    intro α β x k
    constructor
    · rintro ⟨b, hb⟩
      obtain ⟨a, ha, -⟩ := bind_eq_ok.1 hb
      exact ⟨a, ha⟩
    · rintro ⟨a, ha⟩
      exact ⟨k a, bind_eq_ok.2 ⟨a, ha, rfl⟩⟩
  by_cases hrep : Str.isIn "Replicate" f.type = true
  · simp only [answer, sources, if_pos hrep, hbind, getReplicas, mapM_total_iff, get_total_iff,
      List.forall_mem_map]
  · simp only [answer, sources, if_neg hrep, hbind, get_total_iff, List.mem_singleton, forall_eq]

/-- The file of the request has an entry with a known type, and the addresses that the
answer begins with fit their fields. -/
def Answerable (fm : List FilePBA) (re : Request) : Prop :=
  ∃ f ∈ fm.find? (answers re.fileName),
    ∀ extents ∈ sources f, Addressable re.offset re.length extents

theorem lookup_some_iff {fm : List FilePBA} {re : Request} :
    (∃ a, re.lookup fm = .ok (some a)) ↔ Answerable fm re := by
  rw [Answerable, Request.lookup, getPba_eq_find]
  cases fm.find? (answers re.fileName) with
  | none => simp
  | some f =>
    simp only [Option.mem_some_iff, exists_eq_left', ← answer_total_iff]
    cases answer re.offset re.length f <;> simp

/-! ## Batches -/

theorem mapM_toMessage {result : List (Option FilePBA)} {response : List FilePBA} :
    result.mapM toMessage = .ok response ↔ result = response.map some := by
  have hmsg : ∀ element a, toMessage element = .ok a ↔ element = some a := by
    intro element a
    cases element <;> simp [toMessage]
  simp only [mapM_ok_iff, hmsg]
  rw [← List.forall₂_map_right_iff, List.forall₂_eq_eq_eq]

/-- The response of a batch: there is a request, and every request has an answer. -/
theorem GetPba_eq_ok {fm : List FilePBA} {requests : List Request} {response : List FilePBA} :
    GetPba fm requests = .ok response ↔
      requests ≠ [] ∧ List.Forall₂ (fun re a => re.lookup fm = .ok (some a)) requests response := by
  have hlookup : requests.mapM (Request.lookup fm) = .ok (response.map some) ↔
      List.Forall₂ (fun re a => re.lookup fm = .ok (some a)) requests response := by
    rw [mapM_ok_iff, List.forall₂_map_right_iff]
  rw [GetPba, bind_eq_ok, ← hlookup]
  constructor
  · rintro ⟨result, hresult, h⟩
    split at h
    · cases h
    · rename_i hne
      have heq := mapM_toMessage.1 h
      refine ⟨?_, heq ▸ hresult⟩
      rintro rfl
      cases hresult
      exact hne rfl
  · rintro ⟨hne, h⟩
    have hres : response.map some ≠ [] := by
      intro hnil
      have hlen := (hlookup.1 h).length_eq
      rw [List.map_eq_nil_iff.1 hnil] at hlen
      exact hne (List.length_eq_zero_iff.1 hlen)
    refine ⟨response.map some, h, ?_⟩
    rw [if_neg (by simpa using hres)]
    exact mapM_toMessage.2 rfl

/-- Every request has its answer, the one it would have alone. -/
def Independent (fm : List FilePBA) (requests : List Request) : Prop :=
  ∃ response, GetPba fm requests = .ok response ∧
    List.Forall₂ (fun re a => GetPba fm [re] = .ok [a]) requests response

/-- **Batched lookups.** The requests of a batch are answered independently exactly if
there is one and each of them can be answered: a file without an entry of a known type
takes the answers of all the others with it. -/
theorem independent_iff (fm : List FilePBA) (requests : List Request) :
    Independent fm requests ↔ requests ≠ [] ∧ ∀ re ∈ requests, Answerable fm re := by
  have hsingle : ∀ re a, GetPba fm [re] = .ok [a] ↔ re.lookup fm = .ok (some a) := by
    intro re a
    rw [GetPba_eq_ok]
    simp
  simp only [Independent, hsingle, ← lookup_some_iff, ← exists_forall₂_iff, GetPba_eq_ok]
  constructor
  · rintro ⟨response, ⟨hne, hall⟩, -⟩
    exact ⟨hne, response, hall⟩
  · rintro ⟨hne, response, hall⟩
    exact ⟨response, ⟨hne, hall⟩, hall⟩

/-- A file that is known and one that is not. -/
def known : FilePBA := { fileName := "/a", type := "Distribute", pba := [.blockAt "n" (.lit 0)] }

/-- The first request alone is answered; with one for an unknown file after it the call
raises, and so does a call without requests. -/
theorem unknown_suppresses :
    (∃ a, GetPba [known] [⟨"/a", .lit 0, .lit 10⟩] = .ok [a]) ∧
      GetPba [known] [⟨"/a", .lit 0, .lit 10⟩, ⟨"/b", .lit 0, .lit 10⟩] = .error .typeError ∧
      GetPba [known] [] = .error .attributeError ∧
      ¬ Independent [known] [⟨"/a", .lit 0, .lit 10⟩, ⟨"/b", .lit 0, .lit 10⟩] := by
  have hraise : GetPba [known] [⟨"/a", .lit 0, .lit 10⟩, ⟨"/b", .lit 0, .lit 10⟩] =
      .error .typeError := by decide +kernel
  refine ⟨⟨_, rfl⟩, hraise, by decide +kernel, ?_⟩
  rintro ⟨response, h, -⟩
  rw [hraise] at h
  cases h

end Lba2Pba.Agent
