import Acton.Json
import Mathlib.Data.List.TakeWhile

/-!
# Decoding what was encoded

Decoding the text of a value gives the value with every integer cut to 32 bits, since the decoder
reads integers with `yyjson_get_int` (`decode_encode`, `decodeList_encodeList`). So a value comes
back exactly if all its integers fit into 32 bits (`decode_encode_iff`).
-/

namespace Acton.Json
open List
variable {F : Type}

/-! ## Integers -/

/-- The integers that `yyjson_get_int` returns as they are. -/
theorem getInt_eq_self_iff (n : BitVec 64) :
    getInt n = n ↔ -2 ^ 31 ≤ n.toInt ∧ n.toInt < 2 ^ 31 := by
  rw [← BitVec.toInt_inj, getInt, BitVec.toInt_signExtend_of_le (by decide), BitVec.toInt_setWidth,
    BitVec.toInt_eq_toNat_cond, Int.bmod_def]
  have := n.isLt
  split_ifs <;> omega

/-! ## Values -/

mutual
/-- Values that consist of dicts, lists, strs without NUL, integers, bools and None. -/
def Value.Plain : Value F → Prop
  | .none => True
  | .int _ => True
  | .bool _ => True
  | .str s => Char.ofNat 0 ∉ s
  | .list data => PlainList data
  | .dict items => (items.map Prod.fst).Nodup ∧ PlainItems items
  | _ => False

def PlainItems : List (Str × Value F) → Prop
  | [] => True
  | (key, v) :: items => Char.ofNat 0 ∉ key ∧ v.Plain ∧ PlainItems items

def PlainList : List (Value F) → Prop
  | [] => True
  | v :: data => v.Plain ∧ PlainList data
end

mutual
/-- All integers fit into 32 bits. -/
def Value.Fits : Value F → Prop
  | .int val => -2 ^ 31 ≤ val.toInt ∧ val.toInt < 2 ^ 31
  | .list data => FitsList data
  | .dict items => FitsItems items
  | _ => True

def FitsItems : List (Str × Value F) → Prop
  | [] => True
  | (_, v) :: items => v.Fits ∧ FitsItems items

def FitsList : List (Value F) → Prop
  | [] => True
  | v :: data => v.Fits ∧ FitsList data
end

mutual
/-- Every integer is cut to 32 bits. -/
def Value.narrow : Value F → Value F
  | .int val => .int (getInt val)
  | .list data => .list (narrowList data)
  | .dict items => .dict (narrowItems items)
  | v => v

def narrowItems : List (Str × Value F) → List (Str × Value F)
  | [] => []
  | (key, v) :: items => (key, v.narrow) :: narrowItems items

def narrowList : List (Value F) → List (Value F)
  | [] => []
  | v :: data => v.narrow :: narrowList data
end

mutual
lemma Value.narrow_eq_self_iff : ∀ v : Value F, v.narrow = v ↔ v.Fits
  | .int val => by rw [Value.narrow, Value.Fits, Value.int.injEq, getInt_eq_self_iff]
  | .list data => by
    rw [Value.narrow, Value.Fits, Value.list.injEq, narrowList_eq_self_iff data]
  | .dict items => by
    rw [Value.narrow, Value.Fits, Value.dict.injEq, narrowItems_eq_self_iff items]
  | .none | .float _ | .bool _ | .str _ | .i8 _ | .i16 _ | .i32 _ | .u1 _ | .u8 _ | .u16 _
  | .u32 _ | .u64 _ | .other _ => by simp [Value.narrow, Value.Fits]

lemma narrowItems_eq_self_iff : ∀ items : List (Str × Value F),
    narrowItems items = items ↔ FitsItems items
  | [] => by simp [narrowItems, FitsItems]
  | (key, v) :: items => by
    simp [narrowItems, FitsItems, v.narrow_eq_self_iff, narrowItems_eq_self_iff items]

lemma narrowList_eq_self_iff : ∀ data : List (Value F), narrowList data = data ↔ FitsList data
  | [] => by simp [narrowList, FitsList]
  | v :: data => by
    simp [narrowList, FitsList, v.narrow_eq_self_iff, narrowList_eq_self_iff data]
end

/-! ## Trees -/

lemma cString_eq_self {s : Str} (h : Char.ofNat 0 ∉ s) : cString s = s := by
  rw [cString, takeWhile_eq_self_iff]
  intro c hc
  have hne : c ≠ Char.ofNat 0 := fun hnul => h (hnul ▸ hc)
  exact decide_eq_true hne

mutual
lemma exists_encodeValue (unknown : String → String) : ∀ v : Value F, v.Plain →
    ∃ node, encodeValue unknown v = .ok node ∧ decodeValue node.reread = v.narrow
  | .none, _ => ⟨.null, rfl, rfl⟩
  | .int val, _ => ⟨.sint val, rfl, by rw [Node.reread]; split_ifs <;> rfl⟩
  | .bool b, _ => ⟨.bool b, rfl, rfl⟩
  | .str s, h => by
    have hs : Char.ofNat 0 ∉ s := h
    refine ⟨.str s, by rw [encodeValue, cString_eq_self hs], ?_⟩
    rw [Node.reread, decodeValue, cString_eq_self hs, Value.narrow]
    all_goals simp
  | .list data, h => by
    obtain ⟨vals, henc, hdec⟩ := exists_encodeListInto data h
    refine ⟨.arr vals, by rw [encodeValue, henc, Except.map], ?_⟩
    rw [Node.reread, decodeValue, hdec, nil_append, Value.narrow]
  | .dict items, ⟨hkeys, h⟩ => by
    obtain ⟨members, henc, hdec⟩ := exists_encodeDict items h hkeys
    refine ⟨.obj members, by rw [encodeValue, henc, Except.map], ?_⟩
    rw [Node.reread, decodeValue, hdec [] (by simp), nil_append, Value.narrow]

/-- The keys are new for the decoder, so that every item comes to the end of the dict. -/
theorem exists_encodeDict : ∀ items : List (Str × Value F), PlainItems items →
    (items.map Prod.fst).Nodup → ∃ members, encodeDict items = .ok members ∧
      ∀ res : List (Str × Value F), (∀ p ∈ res, p.1 ∉ items.map Prod.fst) →
        decodeObj res (rereadObj members) = res ++ narrowItems items
  | [], _, _ => ⟨[], rfl, fun res _ => by rw [rereadObj, decodeObj, narrowItems, append_nil]⟩
  | (key, v) :: items, ⟨hkey, hv, h⟩, hnodup => by
    obtain ⟨hnew, hnodup⟩ := nodup_cons.mp hnodup
    obtain ⟨node, hnode, hval⟩ := exists_encodeValue _ v hv
    obtain ⟨members, henc, hdec⟩ := exists_encodeDict items h hnodup
    refine ⟨(key, node) :: members, ?_, ?_⟩
    · rw [encodeDict, hnode, henc, cString_eq_self hkey]
      rfl
    · intro res hres
      have habsent : ∀ p ∈ res, ¬ (key == p.1) := by
        intro p hp heq
        exact hres p hp (mem_cons.mpr (.inl (eq_of_beq heq).symm))
      have hres' : ∀ p ∈ res ++ [(key, v.narrow)], p.1 ∉ items.map Prod.fst := by
        intro p hp
        rcases mem_append.mp hp with hp | hp
        · exact fun hmem => hres p hp (mem_cons_of_mem _ hmem)
        · rw [mem_singleton.mp hp]
          exact hnew
      rw [rereadObj, decodeObj, cString_eq_self hkey, hval, OrderedMap.insert_absent habsent,
        hdec _ hres', narrowItems, append_assoc, singleton_append]

lemma exists_encodeListInto : ∀ data : List (Value F), PlainList data →
    ∃ vals, encodeListInto data = .ok vals ∧
      ∀ res : List (Value F), decodeArr res (rereadArr vals) = res ++ narrowList data
  | [], _ => ⟨[], rfl, fun res => by rw [rereadArr, decodeArr, narrowList, append_nil]⟩
  | v :: data, ⟨hv, h⟩ => by
    obtain ⟨node, hnode, hval⟩ := exists_encodeValue _ v hv
    obtain ⟨vals, henc, hdec⟩ := exists_encodeListInto data h
    refine ⟨node :: vals, ?_, ?_⟩
    · rw [encodeListInto, hnode, henc]
      rfl
    · intro res
      rw [rereadArr, decodeArr, hval, hdec, narrowList, append_assoc, singleton_append]
end

/-! ## Texts -/

namespace Yyjson
variable {Text : Type} (yy : Yyjson F Text)

lemma decode_encode {data : List (Str × Value F)} (h : (Value.dict data).Plain)
    (pretty : Bool) : (yy.encode data pretty).bind yy.decode = .ok (narrowItems data) := by
  obtain ⟨members, henc, hdec⟩ := exists_encodeDict data h.2 h.1
  rw [encode, henc]
  show yy.decode (yy.mutWriteOpts pretty (.obj members)) = _
  rw [decode, yy.readOpts_mutWriteOpts, Node.reread]
  exact congrArg Except.ok (hdec [] (by simp))

lemma decodeList_encodeList {data : List (Value F)} (h : (Value.list data).Plain)
    (pretty : Bool) : (yy.encodeList data pretty).bind yy.decodeList = .ok (narrowList data) := by
  obtain ⟨vals, henc, hdec⟩ := exists_encodeListInto data h
  rw [encodeList, henc]
  show yy.decodeList (yy.mutWriteOpts pretty (.arr vals)) = _
  rw [decodeList, yy.readOpts_mutWriteOpts, Node.reread]
  exact congrArg Except.ok (hdec [])

/-- A dict or list comes back exactly if all its integers fit into 32 bits. -/
theorem decode_encode_iff (pretty : Bool) :
    (∀ data : List (Str × Value F), (Value.dict data).Plain →
      ((yy.encode data pretty).bind yy.decode = .ok data ↔ (Value.dict data).Fits)) ∧
    (∀ data : List (Value F), (Value.list data).Plain →
      ((yy.encodeList data pretty).bind yy.decodeList = .ok data ↔ (Value.list data).Fits)) := by
  constructor
  · intro data h
    rw [yy.decode_encode h, Except.ok.injEq, narrowItems_eq_self_iff, Value.Fits]
  · intro data h
    rw [yy.decodeList_encodeList h, Except.ok.injEq, narrowList_eq_self_iff, Value.Fits]

/-- The dict `{"a": [1, None, "x", {}]}` and its list. -/
def nested : List (Str × Value Unit) := [(['a'], .list [.int 1, .none, .str ['x'], .dict []])]

theorem decode_encode_nested :
    ((ofTree Unit).encode nested false).bind (ofTree Unit).decode = .ok nested ∧
      ((ofTree Unit).encodeList [.dict nested] false).bind (ofTree Unit).decodeList =
        .ok [.dict nested] := by
  have hplain : (Value.dict nested).Plain := by
    simp [nested, Value.Plain, PlainItems, PlainList]
  have hfits : (Value.dict nested).Fits := by
    simp [nested, Value.Fits, FitsItems, FitsList]
  have hiff := decode_encode_iff (ofTree Unit) false
  exact ⟨(hiff.1 nested hplain).mpr hfits,
    (hiff.2 [.dict nested] ⟨hplain, trivial⟩).mpr ⟨hfits, trivial⟩⟩

/-- The integer 2147483648 comes back as -2147483648. -/
theorem decode_encode_cuts : (Value.dict [(['a'], (.int 2147483648 : Value Unit))]).Plain ∧
      ((ofTree Unit).encode [(['a'], .int 2147483648)] false).bind (ofTree Unit).decode =
        .ok [(['a'], .int (-2147483648))] ∧
      ((ofTree Unit).encode [(['a'], .int 2147483648)] false).bind (ofTree Unit).decode ≠
        .ok [(['a'], .int 2147483648)] := by
  have hplain : (Value.dict [(['a'], (.int 2147483648 : Value Unit))]).Plain := by
    simp [Value.Plain, PlainItems]
  have hcut := (ofTree Unit).decode_encode hplain false
  refine ⟨hplain, hcut, ?_⟩
  rw [hcut, Ne, Except.ok.injEq, narrowItems_eq_self_iff]
  simp [FitsItems, Value.Fits]

end Yyjson
end Acton.Json
