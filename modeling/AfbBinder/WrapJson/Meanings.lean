import AfbBinder.WrapJson.Readings
import AfbBinder.WrapJson.UnpackRuns

/-! The calls of vunpack, by the outcomes of their descriptors. -/
namespace AfbBinder.WrapJson
open Lib.Cstrings Lib.Loops
open Lib.Json (rbrace)

variable {D : Type} {doubles : Doubles D} {store : Bool}

/-- What a call tells: the stores, with the error but not its place. -/
def outcomeOf : Except (Stop (UnpackState D)) (UnpackState D) → Except Fault (Outcome D)
  | .ok st => .ok ⟨st.stores, none⟩
  | .error (.error e st) => .ok ⟨st.stores, some e⟩
  | .error (.fault f) => .error f

/-- What a call with the outcome returns, at a place of the descriptor when it is an error. -/
def resultOf : Except Fault (Outcome D) → Nat → UnpackResult D
  | .ok ⟨stores, none⟩, _ => .done 0 stores
  | .ok ⟨stores, some e⟩, position => .done (e.rc position) stores
  | .error f, _ => .fault f

theorem vunpack_ends {object : JsonObject D} {desc : Bytes} {args : List UnpackArg}
    {r : Except (Stop (UnpackState D)) (UnpackState D)}
    (h : Ends (unpackStep doubles store) (unpackStart object desc args) r) :
    ∃ position, vunpack doubles store object (some desc) args = some (resultOf (outcomeOf r) position) := by
  unfold vunpack
  rw [unpackRun_iff.mpr h]
  match r with
  | .ok st => exact ⟨0, rfl⟩
  | .error (.error e st) => exact ⟨_, rfl⟩
  | .error (.fault f) => exact ⟨0, rfl⟩

variable (doubles store) in
/-- A call with the descriptor of a shape returns what the shape means. -/
theorem vunpack_meaning (v : Shape) {desc : Bytes} (hdesc : significant desc = v.text) (hdepth : v.depth ≤ STACKCOUNT)
    (o : JsonObject D) : ∃ position, vunpack doubles store o (some desc) (v.args store) =
      some (resultOf (.ok (v.meaning doubles store o)) position) := by
  have hready : Ready store v (unpackStart o desc (v.args store)) [] [] := by
    refine ⟨skipped_skip desc, ?_, (List.append_nil _).symm, nofun, .inl rfl, show (0 : UInt8) ≠ rbrace by decide, ?_⟩
    · rw [List.append_nil, ← hdesc]
      exact significant_skip desc
    · rwa [unpackStart, List.length_nil, Nat.zero_add]
  have hrun := v.runs doubles hready
  rw [if_pos (show (unpackStart o desc (v.args store)).ignore = 0 from rfl)] at hrun
  change Arrives doubles store _ [] (v.meaning doubles store o) _ at hrun
  unfold Arrives at hrun
  cases hmeaning : v.meaning doubles store o with
  | mk stores error =>
    rw [hmeaning] at hrun
    cases error with
    | none =>
      obtain ⟨st', hleads, hleft, hstores⟩ := hrun
      have hend : unpackNext st' = .ok (.inr st') := by
        have hcur : cur st'.d = 0 := by
          rw [hleft.skipped.cur_eq, hleft.text]
          rfl
        have hxacc : st'.xacc = 0 := hleft.xacc
        have hstack : st'.stack = [] := hleft.stack
        unfold unpackNext
        rw [if_pos hxacc, if_neg (not_not_intro hstack), if_neg (not_not_intro hcur)]
      have hends : Ends (unpackStep doubles store) (unpackStart o desc (v.args store)) (.ok st') := by
        refine ends_iff_goes.mpr (hleads.goes.mpr ?_)
        rw [hend]
        rfl
      obtain ⟨position, h⟩ := vunpack_ends hends
      refine ⟨position, h.trans ?_⟩
      rw [outcomeOf, hstores]
      rfl
    | some e =>
      obtain ⟨st', hgoes, hstores⟩ := hrun
      obtain ⟨position, h⟩ := vunpack_ends (ends_iff_goes.mpr hgoes)
      refine ⟨position, h.trans ?_⟩
      rw [outcomeOf, hstores]
      rfl

end AfbBinder.WrapJson
