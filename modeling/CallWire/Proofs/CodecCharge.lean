import Mathlib.Algebra.Group.Defs
import CallWire.Proofs.CodecNarrows
import CallWire.Proofs.ScanMeters
import CallWire.Proofs.ValueCharge
import CallWire.Proofs.ValueNodes

namespace CallWire

-- Mathlib comes first among the imports, for powers to be those of the core library here too.

/-- The limit on charged nodes has no say in templates. -/
theorem Interface.templateAt_charging (i : Interface) (l : Limits) (max : Option Nat) (depth : Nat)
    (id : TypeId) : i.templateAt (l.charging max) depth id = i.templateAt l depth id := by
  have hdepth : ∀ n, (l.charging max).checkDepth n = l.checkDepth n := fun _ => rfl
  have hcollection : ∀ n, (l.charging max).checkCollection n = l.checkCollection n := fun _ => rfl
  exact (templateAt_narrows (fun n => .inl (hdepth n)) fun n => .inl (hcollection n)).eq_of_never

namespace Codec

variable {c : Codec} {ids : List TypeId} {args : List Datum} {values : List Value} {bytes : Bytes}

theorem scanTypes_charging (c : Codec) (max : Option Nat) (ids : List TypeId) :
    (c.under (c.limits.charging max)).scanTypes ids = c.scanTypes ids := by
  induction ids with
  | nil => rfl
  | cons id ids ih =>
    have htype : (c.under (c.limits.charging max)).scanType id = c.scanType id :=
      congrArg (fun t => Scan.ofExcept t >>= Value.scan)
        (c.interface.templateAt_charging c.limits max 0 id)
    rw [scanTypes, scanTypes, ih, htype]

theorem scanType_assembled (c : Codec) (id : TypeId) : (c.scanType id).Assembled :=
  (Scan.Assembled.blind (.ofExcept _)).bind fun t => Value.scan_assembled t

theorem scanTypes_assembled (c : Codec) (ids : List TypeId) : (c.scanTypes ids).Assembled := by
  induction ids with
  | nil => exact .pure []
  | cons id ids ih =>
    rw [scanTypes]
    exact (scanType_assembled c id).bind fun v => ih.bind fun vs => .pure (v :: vs)

theorem scanType_charged (c : Codec) (id : TypeId) :
    (c.scanType id).Accounts fun v _ charged => charged = v.charge := by
  unfold scanType
  refine (Scan.Blind.ofExcept _).elementary.accounts.bind fun t m k hk => ?_
  refine (Value.scan_charged t).mono fun v n l hl => ?_
  rw [hk, hl, Nat.zero_add]

theorem scanTypes_charged (c : Codec) (ids : List TypeId) :
    (c.scanTypes ids).Accounts fun vs _ charged => charged = Value.chargeAll vs := by
  induction ids with
  | nil => exact .pure rfl
  | cons id ids ih =>
    rw [scanTypes]
    refine (scanType_charged c id).bind fun v m k hk => ih.bind fun vs n l hl => .pure ?_
    rw [hk, hl, Value.chargeAll, Nat.add_zero]

/-- Where only charged nodes are limited, values that fit their types are decoded just when their
charge is within the limit. -/
theorem decodeTypes_of_charge {max : Nat} (hframe : c.limits.frame = none)
    (hcollection : c.limits.collection = none) (hexpansion : c.limits.expansion = some max)
    (hmax : max < Count.max) (hf : List.Forall₂ (Interface.Fits c.interface c.limits 0) ids values)
    (he : Value.encodeAll values = .ok bytes) :
    (Value.chargeAll values ≤ max → c.decodeTypes ids bytes = .ok values) ∧
    (max < Value.chargeAll values →
      ∃ value, c.decodeTypes ids bytes = .error (.limitExceeded .expansion value max)) := by
  have hfits : List.Forall₂ (Interface.Fits c.interface (c.limits.charging none) 0) ids values :=
    hf.imp fun id v h =>
      ⟨h.1, (c.interface.templateAt_charging c.limits.uncollected none 0 id).trans h.2⟩
  have hbytes : (Cursor.start bytes (c.limits.charging none)).rest = bytes ++ [] :=
    (List.append_nil bytes).symm
  -- Under no limit at all the values are decoded; what they are charged there decides the rest.
  rcases scanTypes_lands (c := c.under (c.limits.charging none)) hfits he rfl hbytes with
    ⟨total, hscan⟩ | ⟨hlimited, _⟩
  · rw [scanTypes_charging] at hscan
    obtain ⟨_, _, hspends, rfl⟩ := scanTypes_charged c ids _ _ _ hscan
    obtain ⟨_, _, hok, hrefused⟩ := (scanTypes_assembled c ids).metered hmax _ _ _ hscan
    rw [Cursor.metered_start bytes hexpansion] at hok hrefused
    have hcheck : c.limits.checkFrame bytes.length = .ok () := by
      rw [Limits.checkFrame, hframe]
      rfl
    have hle : total ≤ 0 + Value.chargeAll values := hspends.expansion_le
    have heq : total < Count.max → total = 0 + Value.chargeAll values := hspends.expansion
    rw [decodeTypes_of_frame hcheck]
    constructor
    · intro hwithin
      rw [scanWhole_of_ok (hok (show total ≤ max by omega)) rfl]
    · intro hover
      obtain ⟨value, d, hf⟩ := hrefused (Nat.zero_le max) (show max < total by omega)
      have hwhole : c.scanWhole ids (Cursor.start bytes c.limits) =
          .error (.limitExceeded .expansion value max) d := Scan.bind_of_error hf
      exact ⟨value, by rw [hwhole]⟩
  · exact absurd ⟨hcollection, rfl⟩ hlimited

/-- What a codec of default settings encodes it decodes just when the vectors in it are charged
with no more nodes than the limit allows. Encoding charges nothing. -/
theorem decodeInputs_of_charge {i : Interface} (hi : i.Accepted) {name : String}
    (h : (ofInterface i).encode name args = .ok bytes) :
    ∃ m values, i.methodOrConstructor name = .ok m ∧
      (ofInterface i).convert m.inputs args = .ok values ∧ values.length = args.length ∧
      (Value.chargeAll values ≤ 2 ^ 18 →
        (ofInterface i).decodeInputs name bytes = .ok values) ∧
      (2 ^ 18 < Value.chargeAll values → ∃ value, (ofInterface i).decodeInputs name bytes =
        .error (.limitExceeded .expansion value (2 ^ 18))) := by
  obtain ⟨m, hm, hn, values, hvalues, hall⟩ := encode_eq_ok.mp h
  have hfits := convert_fits hi.shortArrays hn hvalues
  rw [decodeInputs_eq hm]
  refine ⟨m, values, hm, hvalues, hfits.length_eq.symm.trans hn, ?_⟩
  exact decodeTypes_of_charge rfl rfl rfl (by decide) hfits hall

def rowsTypes : List TypeDecl :=
  [⟨0, .tuple []⟩, ⟨1, .array 0 (2 ^ 18)⟩, ⟨2, .vector 1⟩, ⟨3, .vector 2⟩]

def rowsMarks : Array Mark :=
  #[.done 1, .done (2 ^ 18 + 2), .done (2 ^ 18 + 3), .done (2 ^ 18 + 4)]

theorem survey_rowsTypes : Walk.survey rowsTypes.toArray = .ok rowsMarks := by cbv

/-- A method that takes rows of arrays, each of as many empty tuples as nodes may be charged. -/
def rowsInterface : Interface :=
  ⟨none, rowsTypes.toArray, [⟨"rows", [3], []⟩], none,
    Walk.wellFounded_of_survey survey_rowsTypes⟩

theorem accepted_rowsInterface : rowsInterface.Accepted := by
  have horder : Interface.inOrder rowsTypes = rowsTypes := by cbv
  exact ⟨rowsTypes, [⟨"rows", [3], []⟩], none,
    Interface.ofParts_of_survey horder (by cbv) (by cbv) survey_rowsTypes (by cbv) rfl⟩

def longArray : Value := .array (.tuple []) (2 ^ 18) (List.replicate (2 ^ 18) (.tuple []))

theorem nodes_units {n : Nat} (h : n + 2 ≤ Count.max) :
    (Value.array (.tuple []) n (List.replicate n (.tuple []))).nodes = n + 2 := by
  have hunit : (Value.tuple []).nodes = 1 := rfl
  rw [Value.nodes_array, List.map_replicate, List.sum_replicate_nat, hunit]
  omega

theorem nodes_longArray : longArray.nodes = 2 ^ 18 + 2 := nodes_units (by decide)

theorem templateAt_longArray : rowsInterface.templateAt {} 2 1 = .ok longArray := by
  have hunit : rowsInterface.templateAt {} 3 0 = .ok (.tuple []) :=
    Interface.templateAt_eq_ok.mpr ⟨rfl, ⟨0, .tuple []⟩, rfl, rfl⟩
  have harray : Value.newArray (.tuple []) (2 ^ 18) = .ok longArray :=
    Value.newArray_eq_ok.mpr ⟨by decide, rfl⟩
  refine Interface.templateAt_eq_ok.mpr ⟨rfl, ⟨1, .array 0 (2 ^ 18)⟩, rfl, ?_⟩
  exact bind_eq_ok.mpr ⟨(), rfl, bind_eq_ok.mpr ⟨_, hunit, harray⟩⟩

theorem blank_longArray : longArray.blank = longArray :=
  (Interface.templateAt_plain templateAt_longArray).2

theorem templateAt_rows : rowsInterface.templateAt {} 1 2 = .ok (.vector longArray []) := by
  refine Interface.templateAt_eq_ok.mpr ⟨rfl, ⟨2, .vector 1⟩, rfl, ?_⟩
  have hvector : Value.newVector longArray = .vector longArray [] := by
    rw [Value.newVector, blank_longArray]
  exact bind_eq_ok.mpr ⟨longArray, templateAt_longArray, congrArg Except.ok hvector⟩

/-- One row, in which there is no array. -/
def rows : Value := .vector (.vector longArray []) [.vector longArray []]

theorem charge_one_vector (t : Value) :
    Value.chargeAll [.vector (.vector t []) [.vector t []]] = (Value.vector t []).nodes - 1 := by
  simp [Value.chargeAll, Value.charge, Value.minSize]

theorem charge_rows : Value.chargeAll [rows] = 2 ^ 18 + 2 := by
  have hnodes : (Value.vector longArray []).nodes = 2 ^ 18 + 3 := by
    have hle : 2 ^ 18 + 3 ≤ Count.max := by decide
    rw [Value.nodes_vector, nodes_longArray, List.map_nil, List.sum_nil]
    omega
  rw [rows, charge_one_vector, hnodes]
  omega

theorem convert_rows :
    (ofInterface rowsInterface).convert [3] [.list [.list []]] = .ok [rows] := by
  have hempty : rowsInterface.valueAt {} 1 2 (.list []) = .ok (.vector longArray []) := by
    refine Interface.valueAt_eq_ok.mpr ⟨rfl, ⟨2, .vector 1⟩, rfl, ?_⟩
    have hitems : rowsInterface.itemValues {} 2 1 [] = .ok [] := by rw [Interface.itemValues]
    refine .vector templateAt_longArray hitems (Value.vectorOf_eq_ok.mpr ⟨by simp, ?_⟩)
    rw [blank_longArray]
  have hrows : rowsInterface.valueAt {} 0 3 (.list [.list []]) = .ok rows := by
    refine Interface.valueAt_eq_ok.mpr ⟨rfl, ⟨3, .vector 2⟩, rfl, ?_⟩
    have hnone : rowsInterface.itemValues {} 1 2 [] = .ok [] := by rw [Interface.itemValues]
    have hitems := Interface.itemValues_cons_eq_ok.mpr ⟨_, [], hempty, hnone, rfl⟩
    refine .vector templateAt_rows hitems (Value.vectorOf_eq_ok.mpr ⟨?_, rfl⟩)
    exact List.forall_mem_singleton.mpr (Value.sameShape_refl _)
  exact convert_cons_eq_ok.mpr ⟨rows, [], hrows, rfl, rfl⟩

theorem encode_rows :
    (ofInterface rowsInterface).encode "rows" [.list [.list []]] = .ok [4, 0] :=
  encode_eq_ok.mpr ⟨⟨"rows", [3], []⟩, rfl, rfl, [rows], convert_rows, rfl⟩

theorem decodeInputs_of_charge_rows :
    (∃ values, (ofInterface Interface.sampleInterface).decodeInputs "store" [1, 1, 0, 1] =
      .ok values) ∧
    ∃ value, (ofInterface rowsInterface).decodeInputs "rows" [4, 0] =
      .error (.limitExceeded .expansion value (2 ^ 18)) := by
  constructor
  · have haccepted : Interface.sampleInterface.Accepted := ⟨_, _, _, Interface.ofParts_sample⟩
    have hencode : (ofInterface Interface.sampleInterface).encode "store"
        [.list [.list [.natural 1, .bool true], .bool false], .bool true] =
          .ok [1, 1, 0, 1] := by cbv
    have hconvert : (ofInterface Interface.sampleInterface).convert [2, 0]
        [.list [.list [.natural 1, .bool true], .bool false], .bool true] =
          .ok [.struct [.enum [[], [.bool false]] 1 [.bool true], .bool false], .bool true] := by
      cbv
    obtain ⟨_, values, hm, hvalues, _, hok, _⟩ := decodeInputs_of_charge haccepted hencode
    cases hm
    cases hvalues.symm.trans hconvert
    exact ⟨_, hok (by decide)⟩
  · obtain ⟨_, values, hm, hvalues, _, _, hrefused⟩ :=
      decodeInputs_of_charge accepted_rowsInterface encode_rows
    cases hm
    cases hvalues.symm.trans convert_rows
    refine hrefused ?_
    rw [charge_rows]
    omega

/-- Nodes that no byte pays for are counted in decoding alone, so that a row without arrays is
encoded and not decoded. -/
theorem decodeInputs_refuses_rows : ¬ ∀ (i : Interface) (name : String) (args : List Datum)
    (bytes : Bytes), i.Accepted → (ofInterface i).encode name args = .ok bytes →
      ∃ values, (ofInterface i).decodeInputs name bytes = .ok values := by
  intro h
  obtain ⟨values, hok⟩ := h _ _ _ _ accepted_rowsInterface encode_rows
  have hfits := convert_fits accepted_rowsInterface.shortArrays rfl convert_rows
  have hall : Value.encodeAll [rows] = .ok [4, 0] := rfl
  obtain ⟨_, hrefused⟩ := decodeTypes_of_charge rfl rfl rfl (by decide) hfits hall
  obtain ⟨value, hf⟩ := hrefused (by rw [charge_rows]; omega)
  cases hok.symm.trans hf

end Codec

end CallWire
