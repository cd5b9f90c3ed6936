import LedisDB.ListTrims

/-!
# The form of a list

In every run whose calls meet `ListKeeps`, a list has no entries at all, or a
meta entry with its two ends and exactly the items between them. The calls that
break this hand `lSetMeta` a size that the items left do not have: a trim by a
negative number, an `LTrim` to a range that lies before the list, and `LSet` on
a list that does not exist, whose two ends are both `listInitialSeq`.
-/

namespace LedisDB

section
variable {db : DB} {env : Env} {s : Store} {st : State} {key value : Bytes} {q : Sequence}
  {u t : Txn} {P : Int32 → Int32 → Int32 → Prop} {args : List Bytes} {r : Ret Int64}
  {trimSize index : Int32} {nc : Int64}

def ListOk (db : DB) (s : Store) (key : Bytes) : Prop := ∃ q, ListRep db s key q

theorem keyLocal_listOk : KeyLocal db .LIST (ListOk db) := by
  intro s s' k hsame h
  obtain ⟨q, h⟩ := h
  exact ⟨q, h.congr (hsame _ (.lmeta k)) fun n => hsame _ (.litem k n)⟩

theorem ListOk.empty (db : DB) (key : Bytes) : ListOk db OrderedMap.empty key :=
  ⟨⟨0, []⟩, ListRep.of_empty rfl fun _ => rfl⟩

theorem lDelete_deleter (hs : StoreWf s) (h : EveryKey (ListOk db) s) :
    Deleter s (LClears db s) db.lDelete := by
  intro key env u hk
  obtain ⟨q, hq⟩ := h key hk
  obtain ⟨b, hrun, hclear⟩ := lDelete_run env u hs hq
  exact ⟨_, b, hrun, hclear⟩

def Ends (db : DB) (env : Env) (s : Store) (key : Bytes) (P : Int32 → Int32 → Int32 → Prop) :
    Prop :=
  ∀ head tail size,
    (db.lGetMeta (db.lEncodeMetaKey key)).eval env s = .ok (head, tail, size) → P head tail size

def Write.ListKeeps (db : DB) (env : Env) (s : Store) : Write → Prop
  | .LPush _ args | .RPush _ args => args.length ≤ 2 ^ 31
  | .LTrim key start stop => Ends db env s key fun _ _ size => size ≠ 0 →
      position size.toInt start.toInt32.toInt ≤ position size.toInt stop.toInt32.toInt →
        -1 ≤ position size.toInt stop.toInt32.toInt
  | .LTrimFront key trimSize => Ends db env s key fun _ _ size => size ≠ 0 →
      trimSize.toInt < 0 → 2 ^ 31 ≤ size.toInt - trimSize.toInt
  | .LTrimBack key trimSize => Ends db env s key fun _ tail size => size ≠ 0 →
      trimSize.toInt < 0 → 2 ^ 31 ≤ tail.toInt - trimSize.toInt + 1
  | .LSet key index _ => Ends db env s key fun _ _ size => size = 0 → index ≠ 0 ∧ index ≠ -1
  | _ => True

def Call.ListKeeps (db : DB) (env : Env) (st : State) : Call → Prop
  | .write w => w.ListKeeps db env st.store
  | .check => True

theorem Ends.of_eval (head tail size : Int32)
    (h : (db.lGetMeta (db.lEncodeMetaKey key)).eval env s = .ok (head, tail, size))
    (hP : P head tail size) : Ends db env s key P := by
  intro head' tail' size' h'
  rw [h] at h'
  cases h'
  exact hP

theorem ListRep.ends (h : ListRep db s key q) (hP : Ends db env s key P) :
    P (metaOf q).1 (metaOf q).2.1 (metaOf q).2.2 := by
  apply hP
  rw [Op.eval, h.lGetMeta]

theorem ListRep.size_toInt (h : ListRep db s key q) : (metaOf q).2.2.toInt = q.items.length := by
  have hlen := h.length_lt
  rw [metaOf_size, toInt_ofInt32 ⟨by omega, by omega⟩]

theorem ListRep.size_eq_zero (h : ListRep db s key q) : (metaOf q).2.2 = 0 ↔ q.items = [] := by
  rw [← Int32.toInt_inj, h.size_toInt]
  simp

theorem checkKeySize_valid {α : Type} {f : Unit → Op α} {r : α}
    (h : (Op.lift (checkKeySize key) >>= f) env s u = (.ok r, t)) : ValidKey key := by
  obtain ⟨_, _, hc, -⟩ := Op.bind_ok.mp h
  exact checkKeySize_ok.mp (Op.lift_ok.mp hc).1

theorem ListRep.of_run {α : Type} {x : Op α} {r r' : α} {b : Batch}
    (hrep : ListRep db (s.applyBatch b) key q) (hrun : x env s ⟨[], nc⟩ = (.ok r', ⟨[] ++ b, nc⟩))
    (h : x env s ⟨[], nc⟩ = (.ok r, t)) : ListOk db (s.applyBatch t.batch) key := by
  rw [hrun] at h
  cases h
  exact ⟨q, hrep⟩

section
variable (hrep : ListRep db s key q)
include hrep

theorem push_ok {x : Op (Ret Int64)} {q' : Sequence} {n n' : Int64}
    (hnil : args = [] → x env s ⟨[], nc⟩ = (.ok (.done n), ⟨[], nc⟩))
    (hrun : args ≠ [] → Pushes db env s ⟨[], nc⟩ key x n' q')
    (h : x env s ⟨[], nc⟩ = (.ok r, t)) : ListOk db (s.applyBatch t.batch) key := by
  by_cases hne : args = []
  · rw [hnil hne] at h
    cases h
    exact ⟨q, hrep⟩
  · obtain ⟨b, hrun, hb⟩ := hrun hne
    by_cases hf : q'.Fits
    · rw [if_pos hf] at hrun
      exact (hb hf).of_run hrun h
    · rw [if_neg hf, h] at hrun
      cases hrun

theorem LPush_ok (hn : args.length ≤ 2 ^ 31) (h : db.LPush key args env s ⟨[], nc⟩ = (.ok r, t)) :
    ListOk db (s.applyBatch t.batch) key := by
  have hk := checkKeySize_valid h
  exact push_ok hrep (fun hne => hne ▸ lpush_nil hk hrep _)
    (fun hne => LPush_run env ⟨[], nc⟩ hk hrep hne hn) h

theorem RPush_ok (hn : args.length ≤ 2 ^ 31) (h : db.RPush key args env s ⟨[], nc⟩ = (.ok r, t)) :
    ListOk db (s.applyBatch t.batch) key := by
  have hk := checkKeySize_valid h
  exact push_ok hrep (fun hne => hne ▸ lpush_nil hk hrep _)
    (fun hne => RPush_run env ⟨[], nc⟩ hk hrep hne hn) h

theorem LPop_ok {r : Ret (Option Bytes)}
    (h : db.LPop key env s ⟨[], nc⟩ = (.ok r, t)) : ListOk db (s.applyBatch t.batch) key := by
  have hk := checkKeySize_valid h
  by_cases hq : q.items = []
  · rw [DB.LPop, lpop_empty hk hrep hq] at h
    cases h
    exact ⟨q, hrep⟩
  · obtain ⟨b, hrun, hb⟩ := LPop_run env ⟨[], nc⟩ hk hrep hq
    exact hb.rep.of_run hrun h

theorem RPop_ok {r : Ret (Option Bytes)}
    (h : db.RPop key env s ⟨[], nc⟩ = (.ok r, t)) : ListOk db (s.applyBatch t.batch) key := by
  have hk := checkKeySize_valid h
  by_cases hq : q.items = []
  · rw [DB.RPop, lpop_empty hk hrep hq] at h
    cases h
    exact ⟨q, hrep⟩
  · obtain ⟨b, hrun, hb⟩ := RPop_run env ⟨[], nc⟩ hk hrep hq
    exact hb.rep.of_run hrun h

end

theorem LTrim_ok (hs : StoreWf s) (hrep : ListRep db s key q) {start stop : Int64}
    (hw : (Write.LTrim key start stop).ListKeeps db env s) {r : Ret Unit}
    (h : db.LTrim key start stop env s ⟨[], nc⟩ = (.ok r, t)) :
    ListOk db (s.applyBatch t.batch) key := by
  have hk := checkKeySize_valid h
  have hends := hrep.ends hw
  rw [Ne, hrep.size_eq_zero, hrep.size_toInt] at hends
  obtain ⟨q', b, hrun, hb⟩ := LTrim_list hs hk hrep rfl rfl hends
  exact hb.of_run hrun h

theorem LTrimFront_ok (hrep : ListRep db s key q)
    (hw : (Write.LTrimFront key trimSize).ListKeeps db env s) {r : Ret Int32}
    (h : db.LTrimFront key trimSize env s ⟨[], nc⟩ = (.ok r, t)) :
    ListOk db (s.applyBatch t.batch) key := by
  have hk := checkKeySize_valid h
  have hends := hrep.ends hw
  rw [Ne, hrep.size_eq_zero, hrep.size_toInt] at hends
  by_cases hc : trimSize = 0 ∨ q.items = []
  · rw [DB.LTrimFront, ltrim_done hk hrep hc] at h
    cases h
    exact ⟨q, hrep⟩
  · rw [not_or] at hc
    obtain ⟨q', r', b, hrun, hb⟩ := LTrimFront_list hk hrep hc.2 hc.1 (hends hc.2)
    exact hb.of_run hrun h

theorem LTrimBack_ok (hrep : ListRep db s key q)
    (hw : (Write.LTrimBack key trimSize).ListKeeps db env s) {r : Ret Int32}
    (h : db.LTrimBack key trimSize env s ⟨[], nc⟩ = (.ok r, t)) :
    ListOk db (s.applyBatch t.batch) key := by
  have hk := checkKeySize_valid h
  have hends := hrep.ends hw
  rw [Ne, hrep.size_eq_zero] at hends
  by_cases hc : trimSize = 0 ∨ q.items = []
  · rw [DB.LTrimBack, ltrim_done hk hrep hc] at h
    cases h
    exact ⟨q, hrep⟩
  · rw [not_or] at hc
    obtain ⟨h1, h2⟩ := push_base hrep hc.2
    have htail : (metaOf q).2.1.toInt = q.tail := by
      rw [metaOf_cons hc.2, toInt_ofInt32]
      unfold Sequence.tail
      omega
    rw [htail] at hends
    obtain ⟨q', r', b, hrun, hb⟩ := LTrimBack_list hk hrep hc.2 hc.1 (hends hc.2)
    exact hb.of_run hrun h

theorem LSet_ok (hrep : ListRep db s key q) (hw : (Write.LSet key index value).ListKeeps db env s)
    {r : Ret Unit} (h : db.LSet key index value env s ⟨[], nc⟩ = (.ok r, t)) :
    ListOk db (s.applyBatch t.batch) key := by
  have hends := hrep.ends hw
  rw [hrep.size_eq_zero] at hends
  obtain ⟨q', b, hb, hrep'⟩ := LSet_list hrep hends h
  rw [hb]
  exact ⟨q', hrep'⟩

theorem list_write_ok (hs : StoreWf st.store) (hI : EveryKey (ListOk db) st.store) (w : Write)
    (hT : w.type = .LIST) (hkey : key ∈ w.keys) (hk : key.length ≤ MaxKeySize)
    (hw : w.ListKeeps db env st.store) : ListOk db (exec env (w.body db) st).2.store key := by
  have h := hI key hk
  obtain ⟨q, hrep⟩ := hI key hk
  cases w <;> (try cases hT) <;> try cases List.mem_singleton.mp hkey
  case LPush => exact exec_keeps h fun r t hr => LPush_ok hrep hw hr
  case RPush => exact exec_keeps h fun r t hr => RPush_ok hrep hw hr
  case LPop => exact exec_keeps h fun r t hr => LPop_ok hrep hr
  case RPop => exact exec_keeps h fun r t hr => RPop_ok hrep hr
  case LTrim => exact exec_keeps h fun r t hr => LTrim_ok hs hrep hw hr
  case LTrimFront => exact exec_keeps h fun r t hr => LTrimFront_ok hrep hw hr
  case LTrimBack => exact exec_keeps h fun r t hr => LTrimBack_ok hrep hw hr
  case LSet => exact exec_keeps h fun r t hr => LSet_ok hrep hw hr
  case LClear =>
    refine exec_keeps h fun r t hr => ?_
    obtain ⟨b, hb, hclear⟩ := clear_ok (clearing_lclears db st.store) (lDelete_deleter hs hI) hr
    rw [hb]
    exact ⟨_, hclear.listRep 0⟩
  case LMclear =>
    refine exec_keeps h fun r t hr => ?_
    obtain ⟨b, hb, hclear⟩ := mclear_ok (clearing_lclears db st.store) (lDelete_deleter hs hI) hr
    rw [hb]
    exact ⟨_, (hclear key hkey).listRep 0⟩
  case LExpire =>
    exact keyLocal_listOk.expireOnly (.expireDuration (expireSized_expireOnly LLen_reads _)) h
  case LExpireAt =>
    exact keyLocal_listOk.expireOnly (.expireDeadline (expireSized_expireOnly LLen_reads _)) h
  case LPersist => exact keyLocal_listOk.expireOnly (.persist rmExpire_expireOnly) h

theorem list_step_ok (hs : StoreWf st.store) (h : EveryKey (ListOk db) st.store) (c : Call)
    (hc : c.ListKeeps db env st) : EveryKey (ListOk db) (c.step db env st).2.1.store := by
  refine step_keyLocal keyLocal_listOk hs h c ?_ ?_
  · rintro w rfl hT k hkey hk
    exact list_write_ok hs h w hT hkey hk hc
  · intro st' k w hs' hI hk
    exact expiry_clears (P := fun s => ListOk db s k) (clearing_lclears db st'.store)
      (lDelete_deleter hs' hI) (fun b hb => ⟨_, hb.listRep 0⟩) hk w (hI k hk)

/-- The entries of a list: none, or a meta entry and exactly the items between its ends. -/
def ListEntries (db : DB) (s : Store) (key : Bytes) : Prop :=
  (s.get (db.lEncodeMetaKey key) = none ∧ ∀ n, s.get (db.lEncodeListKey key n) = none) ∨
  ∃ head tail, s.get (db.lEncodeMetaKey key) = some (putMeta head tail) ∧
    listMinSeq < head ∧ head ≤ tail ∧ tail < listMaxSeq ∧
    ∀ n, (s.get (db.lEncodeListKey key n)).isSome ↔ head ≤ n ∧ n ≤ tail

theorem ListRep.entries (h : ListRep db s key q) : ListEntries db s key := by
  by_cases hq : q.items = []
  · left
    refine ⟨by rw [h.metaEntry, if_pos hq], fun n => by rw [h.items, hq, window_nil]⟩
  · right
    obtain ⟨h1, h2⟩ := push_base h hq
    have hpos : q.items.length ≠ 0 := by simpa using hq
    have hmin : listMinSeq.toInt = 1000 := by decide
    have hmax : listMaxSeq.toInt = 2147482648 := by decide
    have hh := toInt_ofInt32 (z := q.head) ⟨by omega, by omega⟩
    have ht := toInt_ofInt32 (z := q.tail) (by unfold Sequence.tail; omega)
    refine ⟨Int32.ofInt q.head, Int32.ofInt q.tail, by rw [h.metaEntry, if_neg hq], ?_, ?_, ?_,
      fun n => ?_⟩
    · rw [Int32.lt_iff_toInt_lt]
      omega
    · rw [Int32.le_iff_toInt_le, ht]
      unfold Sequence.tail
      omega
    · rw [Int32.lt_iff_toInt_lt, ht]
      unfold Sequence.tail
      omega
    · rw [h.items, window_isSome, Int32.le_iff_toInt_le, Int32.le_iff_toInt_le, ht]
      unfold Sequence.tail
      omega

theorem ListEntries.no_item (h : ListEntries db s key) (hm : s.get (db.lEncodeMetaKey key) = none)
    (n : Int32) : s.get (db.lEncodeListKey key n) = none := by
  rcases h with h | ⟨head, tail, hmeta, -⟩
  · exact h.2 n
  · rw [hm] at hmeta
    cases hmeta

theorem ListEntries.item (h : ListEntries db s key) (head tail n : Int32)
    (hm : s.get (db.lEncodeMetaKey key) = some (putMeta head tail)) (hn : head ≤ n ∧ n ≤ tail) :
    (s.get (db.lEncodeListKey key n)).isSome := by
  rcases h with h | ⟨head', tail', hmeta, -, -, -, hitems⟩
  · rw [h.1] at hm
    cases hm
  · rw [hm] at hmeta
    have hends := congrArg getMeta (Option.some.inj hmeta)
    rw [getMeta_putMeta, getMeta_putMeta] at hends
    cases hends
    exact (hitems n).mpr hn

/-- In every run whose calls meet `ListKeeps`, every list has this form. -/
theorem list_items_match_ends (db : DB) (cs : List (Env × Call))
    (hcs : AllSteps db (fun env st c => c.ListKeeps db env st) cs State.empty) (key : Bytes)
    (hk : key.length ≤ MaxKeySize) : ListEntries db (run db cs State.empty).store key := by
  obtain ⟨q, h⟩ := run_keyLocal (fun k _ => ListOk.empty db k)
    (fun _ _ c hs h hc => list_step_ok hs h c hc) hcs key hk
  exact h.entries

theorem list_items_match_ends_trimmed : ListEntries DB.zero
    (run DB.zero [(Env.quiet 0, .write (.RPush [107] [[97], [98], [99]])),
      (Env.quiet 0, .write (.LTrim [107] 1 (-1))),
      (Env.quiet 0, .write (.LSet [107] (-1) [100]))] State.empty).store [107] :=
  list_items_match_ends DB.zero
    [(Env.quiet 0, .write (.RPush [107] [[97], [98], [99]])),
      (Env.quiet 0, .write (.LTrim [107] 1 (-1))),
      (Env.quiet 0, .write (.LSet [107] (-1) [100]))]
    ⟨show ([[97], [98], [99]] : List Bytes).length ≤ 2 ^ 31 from by decide,
      Ends.of_eval 1073741824 1073741826 3 (by decide) (by decide),
      Ends.of_eval 1073741825 1073741826 2 (by decide) (by decide), trivial⟩ [107] (by decide)

theorem list_items_mismatch :
    ¬ ListEntries DB.zero (run DB.zero
      [(Env.quiet 0, .write (.LSet [107] 0 [97]))] State.empty).store [107] ∧
    ¬ ListEntries DB.zero (run DB.zero
      [(Env.quiet 0, .write (.RPush [107] [[97]])),
        (Env.quiet 0, .write (.LTrim [107] (-3) (-3)))] State.empty).store [107] ∧
    ¬ ListEntries DB.zero (run DB.zero
      [(Env.quiet 0, .write (.RPush [107] [[97]])),
        (Env.quiet 0, .write (.LTrimFront [107] (-1)))] State.empty).store [107] ∧
    ¬ ListEntries DB.zero (run DB.zero
      [(Env.quiet 0, .write (.RPush [107] [[97]])),
        (Env.quiet 0, .write (.LTrimBack [107] (-1)))] State.empty).store [107] := by
  refine ⟨fun h => ?_, fun h => ?_, fun h => ?_, fun h => ?_⟩
  · exact absurd (h.no_item (by decide) 1073741824) (by decide)
  · exact absurd (h.item 1073741824 1073741824 1073741824 (by decide) (by decide)) (by decide)
  · exact absurd (h.item 1073741823 1073741824 1073741823 (by decide) (by decide)) (by decide)
  · exact absurd (h.item 1073741824 1073741825 1073741825 (by decide) (by decide)) (by decide)

end

end LedisDB
