import LedisDB.RangeWrites

/-!
# BITOP

`BitOP` returns zero and writes nothing when it is given one source, also for NOT, and it
notices an unknown operation only when it meets two values that both have a byte. For two
or more sources with keys of a valid size AND, OR and XOR put the bytewise operation of
the values, padded with zeros.
-/

namespace LedisDB

open List

namespace BitOpName

def unit : BitOpName → UInt8
  | .BitAND => 255
  | _ => 0

def bytewise (f : UInt8 → UInt8 → UInt8) (op : BitOpName) (vs : List Bytes) : Bytes :=
  Pointwise.combine f op.unit 0 vs

section
variable {op : BitOpName} {f : UInt8 → UInt8 → UInt8}

section
variable (h : op.byte = some f)
include h

theorem byte_comm : Std.Commutative f := by
  cases op <;> cases h
  · exact ⟨UInt8.and_comm⟩
  · exact ⟨UInt8.or_comm⟩
  · exact ⟨UInt8.xor_comm⟩

theorem byte_assoc : Std.Associative f := by
  cases op <;> cases h
  · exact ⟨UInt8.and_assoc⟩
  · exact ⟨UInt8.or_assoc⟩
  · exact ⟨UInt8.xor_assoc⟩

theorem byte_unit (x : UInt8) : f op.unit x = x := by
  cases op <;> cases h
  · exact UInt8.neg_one_and
  · exact UInt8.zero_or
  · exact UInt8.zero_xor

theorem byte_zero : f 0 0 = 0 := by
  cases op <;> cases h <;> rfl

theorem byte_ne_not : op ≠ .BitNot := by
  rintro rfl
  cases h

theorem bytewise_perm {vs ws : List Bytes} (hperm : vs.Perm ws) :
    op.bytewise f vs = op.bytewise f ws := by
  have := byte_comm h
  have := byte_assoc h
  exact Pointwise.combine_perm hperm

end

end

end BitOpName

open BitOpName

section
variable {db : DB} {env : Env} {st : State} {s : Store} {op : BitOpName} {f : UInt8 → UInt8 → UInt8}
  {dest k src : Bytes} {srcs ks : List Bytes} {v w r : Bytes} {e : Err}

theorem zipWith_padTo_getD (h0 : f 0 0 = 0) {long short : Bytes}
    (hle : short.length ≤ long.length) (i : ℕ) :
    (long.zipWith f (padTo long.length short)).getD i 0 = f (long.getD i 0) (short.getD i 0) := by
  have hlen : (padTo long.length short).length = long.length := by
    rw [padTo_length, max_eq_right hle]
  by_cases hi : i < long.length
  · rw [getD_eq_getElem _ _ (by simpa [hlen] using hi), getElem_zipWith,
      ← padTo_getD long.length short, getD_eq_getElem _ _ hi,
      getD_eq_getElem _ _ (hi.trans_eq hlen.symm)]
  · rw [getD_eq_default _ _ (by simpa [hlen] using hi),
      getD_eq_default _ _ (not_lt.mp hi),
      getD_eq_default _ _ (hle.trans (not_lt.mp hi)), h0]

theorem bitCombine_eq (h : op.byte = some f) (v w : Bytes) :
    bitCombine op v w = .ok (op.bytewise f [v, w]) := by
  have hlen := @bitCombine_length op v w
  have := byte_comm h
  unfold bitCombine at hlen ⊢
  simp only [h] at hlen ⊢
  rw [Except.ok.injEq]
  refine Pointwise.eq_combine_pair (byte_unit h) (byte_zero h) (hlen rfl) fun i => ?_
  split_ifs with hlt
  · exact (zipWith_padTo_getD (byte_zero h) hlt.le i).trans (Std.Commutative.comm _ _)
  · exact zipWith_padTo_getD (byte_zero h) (not_lt.mp hlt) i

theorem foldlM_bitCombine_eq (h : op.byte = some f) (v : Bytes) (vs : List Bytes) :
    vs.foldlM (bitCombine op) v = .ok (op.bytewise f (v :: vs)) := by
  induction vs generalizing v with
  | nil =>
    rw [bytewise, Pointwise.combine_singleton (byte_unit h) (byte_zero h)]
    rfl
  | cons w vs ih =>
    rw [foldlM_cons, bitCombine_eq h]
    refine (ih _).trans ?_
    rw [bytewise, bytewise, bytewise, Pointwise.combine_combine (byte_unit h) (byte_zero h)]

section
variable {op : Bytes}

theorem BitOP_badKey (hd : ¬ ValidKey dest) (op : Bytes) (srcs : List Bytes) :
    exec env (db.BitOP op dest srcs) st = (.error .errKeySize, st) := by
  simp [exec, DB.BitOP, checkKeySize_error hd]

theorem BitOP_few (hd : ValidKey dest) (hlen : srcs.length < 2) (op : Bytes) :
    exec env (db.BitOP op dest srcs) st = (.ok 0, st) := by
  match srcs with
  | [] => simp [exec, DB.BitOP, checkKeySize_ok.mpr hd]
  | [_] => simp [exec, DB.BitOP, checkKeySize_ok.mpr hd]
  | _ :: _ :: _ => exact absurd hlen (by simp)

theorem BitOP_not (hop : ofText op = .BitNot) (hd : ValidKey dest) (hlen : 2 ≤ srcs.length) :
    exec env (db.BitOP op dest srcs) st = (.error .errBitOP, st) := by
  match srcs with
  | [] => simp at hlen
  | [_] => simp at hlen
  | _ :: _ :: _ => simp [exec, DB.BitOP, checkKeySize_ok.mpr hd, hop]

theorem BitOP_many (hd : ValidKey dest) (hop : ofText op ≠ .BitNot) (hks : ks ≠ []) :
    exec env (db.BitOP op dest (src :: ks)) st =
      match (db.bitOPLoop (ofText op) ((st.store.get (db.encodeKVKey src)).getD []) ks).eval env
          st.store with
      | .error e => (.error e, st)
      | .ok value =>
        match commit env st.store [.put (db.encodeKVKey dest) value] with
        | .error e => (.error e, st)
        | .ok s => (.ok (Int64.ofNat value.length), ⟨s, st.nc⟩) := by
  match ks with
  | [] => exact absurd rfl hks
  | k :: ks =>
    simp only [exec, DB.BitOP, Op.bind_run, checkKeySize_ok.mpr hd, if_neg hop,
      Op.get_run, bitOPLoop_reads (ofText op) _ (k :: ks) _]
    cases (db.bitOPLoop (ofText op) ((st.store.get (db.encodeKVKey src)).getD [])
        (k :: ks)).eval env st.store with
    | error e => rfl
    | ok value => rfl

end

theorem bitCombine_error (h : bitCombine op v w = .error e) : e = .errBitOP := by
  unfold bitCombine at h
  cases hop : op.byte with
  | some f => simp [hop] at h
  | none =>
    simp only [hop] at h
    split_ifs at h <;> exact (Except.error.inj h).symm

theorem bitOPLoop_error (h : (db.bitOPLoop op v ks).eval env s = .error e) :
    e = .errKeySize ∨ e = .errBitOP := by
  induction ks generalizing v with
  | nil => cases h
  | cons k ks ih =>
    simp only [DB.bitOPLoop, Op.eval, Op.bind_run, Op.get_run] at h
    by_cases hk : ValidKey k
    · rw [checkKeySize_ok.mpr hk] at h
      cases hc : bitCombine op v ((s.get (db.encodeKVKey k)).getD []) with
      | error e' =>
        rw [hc] at h
        cases h
        exact .inr (bitCombine_error hc)
      | ok u =>
        rw [hc] at h
        exact ih h
    · rw [checkKeySize_error hk] at h
      cases h
      exact .inl rfl

theorem bitCombine_unknown (hop : op.byte = none) (v w : Bytes) :
    bitCombine op v w = if v = [] then .ok w else if w = [] then .ok v else .error .errBitOP := by
  simp only [bitCombine, hop]
  by_cases hv : v = []
  · subst hv
    cases w with
    | nil => rfl
    | cons b w => rfl
  · rw [if_neg hv]
    by_cases hw : w = []
    · subst hw
      rfl
    · rw [if_neg hw, if_neg]
      split_ifs
      · exact hv
      · exact hw

theorem foldlM_bitCombine_unknown (hop : op.byte = none) (v : Bytes) (vs : List Bytes) :
    (∃ r, vs.foldlM (bitCombine op) v = .ok r) ↔ ((v :: vs).filter (· ≠ [])).length ≤ 1 := by
  induction vs generalizing v with
  | nil => exact iff_of_true ⟨v, rfl⟩ (length_filter_le _ _)
  | cons w vs ih =>
    rw [foldlM_cons, bitCombine_unknown hop]
    by_cases hv : v = []
    · rw [if_pos hv]
      refine (ih w).trans ?_
      simp [hv]
    · rw [if_neg hv]
      by_cases hw : w = []
      · rw [if_pos hw]
        refine (ih v).trans ?_
        simp [hv, hw]
      · rw [if_neg hw]
        refine iff_of_false (fun ⟨r, h⟩ => nomatch h) ?_
        simp [hv, hw]

section
variable {op : Bytes}

def PutsValue (db : DB) (dest : Bytes) (new : Bytes) (res : Except Err Int64 × State) : Prop :=
  ∃ n, res.1 = .ok n ∧ n.toInt = new.length ∧ res.2.store.get (db.encodeKVKey dest) = some new

def Refuses (st : State) (res : Except Err Int64 × State) : Prop :=
  (∃ e, res.1 = .error e) ∧ res.2.store = st.store

structure BitOPComputes (db : DB) (env : Env) (st : State) (op dest : Bytes)
    (srcs : List Bytes) : Prop where
  combines : ∀ f, (ofText op).byte = some f → srcs ≠ [] →
    PutsValue db dest ((ofText op).bytewise f (db.valuesOf st.store srcs))
      (exec env (db.BitOP op dest srcs) st)
  anyOrder : ∀ f, (ofText op).byte = some f → srcs ≠ [] → ∀ srcs', srcs'.Perm srcs →
    exec env (db.BitOP op dest srcs') st = exec env (db.BitOP op dest srcs) st
  complements : ofText op = .BitNot → ∀ k, srcs = [k] →
    PutsValue db dest (((st.store.get (db.encodeKVKey k)).getD []).map (~~~ ·))
      (exec env (db.BitOP op dest srcs) st)
  refuses : ofText op = .other ∨ ofText op = .BitNot ∧ 2 ≤ srcs.length →
    Refuses st (exec env (db.BitOP op dest srcs) st)

def AlreadyEmpty (db : DB) (s : Store) (dest k : Bytes) : Prop :=
  ValidKey dest ∧ (s.get (db.encodeKVKey k)).getD [] = [] ∧ s.get (db.encodeKVKey dest) = some []

def BitOPFits (db : DB) (s : Store) (op dest : Bytes) (srcs : List Bytes) : Prop :=
  match ofText op with
  | .BitNot => ∀ k, srcs = [k] → AlreadyEmpty db s dest k
  | .other => ¬ ValidKey dest ∨ 2 ≤ srcs.length ∧ ((∃ k ∈ srcs.tail, ¬ ValidKey k) ∨
      2 ≤ ((db.valuesOf s srcs).filter (· ≠ [])).length)
  | _ => srcs = [] ∨ (∃ k, srcs = [k] ∧ AlreadyEmpty db s dest k) ∨
      2 ≤ srcs.length ∧ ValidKey dest ∧ ∀ k ∈ srcs, ValidKey k

theorem putsValue_few_iff (hlen : srcs.length < 2) (new : Bytes) :
    PutsValue db dest new (exec env (db.BitOP op dest srcs) st) ↔
      ValidKey dest ∧ new = [] ∧ st.store.get (db.encodeKVKey dest) = some [] := by
  by_cases hd : ValidKey dest
  · rw [BitOP_few hd hlen]
    constructor
    · rintro ⟨n, ⟨⟩, hlen, hget⟩
      have hnil := length_eq_zero_iff.mp (Int.natCast_eq_zero.mp hlen.symm)
      exact ⟨hd, hnil, hnil ▸ hget⟩
    · rintro ⟨-, rfl, hget⟩
      exact ⟨0, rfl, rfl, hget⟩
  · rw [BitOP_badKey hd]
    exact iff_of_false (fun ⟨n, hn, _⟩ => nomatch hn) fun h => hd h.1

theorem BitOP_combines (hop : (ofText op).byte = some f) (hlen : 2 ≤ srcs.length)
    (hd : ValidKey dest) (hv : ∀ k ∈ srcs, ValidKey k) (henv : env.Commits) :
    exec env (db.BitOP op dest srcs) st =
      (.ok (Int64.ofNat ((ofText op).bytewise f (db.valuesOf st.store srcs)).length),
        ⟨st.store.applyBatch [.put (db.encodeKVKey dest)
          ((ofText op).bytewise f (db.valuesOf st.store srcs))], st.nc⟩) := by
  match srcs with
  | [] => simp at hlen
  | [_] => simp at hlen
  | src :: k :: ks =>
    have hnot := byte_ne_not hop
    have hloop : (db.bitOPLoop (ofText op) ((st.store.get (db.encodeKVKey src)).getD [])
        (k :: ks)).eval env st.store =
          .ok ((ofText op).bytewise f (db.valuesOf st.store (src :: k :: ks))) :=
      bitOPLoop_ok.mpr ⟨(forall_mem_cons.mp hv).2, foldlM_bitCombine_eq hop _ _⟩
    simp [BitOP_many hd hnot (cons_ne_nil k ks), hloop, henv.commit]

theorem bytewise_toInt (hs : Proper s) (f : UInt8 → UInt8 → UInt8) (op : Bytes)
    (srcs : List Bytes) :
    (Int64.ofNat ((ofText op).bytewise f (db.valuesOf s srcs)).length).toInt =
      ((ofText op).bytewise f (db.valuesOf s srcs)).length := by
  refine toInt_ofNat_size ?_
  rw [bytewise, Pointwise.combine_length]
  exact Pointwise.maxLength_le (valuesOf_length_le hs srcs)

theorem BitOP_badSource (hk : k ∈ ks) (hkv : ¬ ValidKey k) :
    ∃ e, (exec env (db.BitOP op dest (src :: ks)) st).1 = .error e := by
  by_cases hd : ValidKey dest
  · by_cases hop : ofText op = .BitNot
    · refine ⟨.errBitOP, ?_⟩
      rw [BitOP_not hop hd]
      exact Nat.succ_le_succ (length_pos_of_mem hk)
    · rw [BitOP_many hd hop (ne_nil_of_mem hk)]
      cases hloop : (db.bitOPLoop (ofText op) ((st.store.get (db.encodeKVKey src)).getD [])
          ks).eval env st.store with
      | error e => exact ⟨e, rfl⟩
      | ok value => exact absurd ((bitOPLoop_ok.mp hloop).1 k hk) hkv
  · exact ⟨.errKeySize, by rw [BitOP_badKey hd]⟩

theorem bytewise_single (hop : (ofText op).byte = some f) (s : Store) (k : Bytes) :
    (ofText op).bytewise f (db.valuesOf s [k]) = (s.get (db.encodeKVKey k)).getD [] :=
  Pointwise.combine_singleton (byte_unit hop) (byte_zero hop) _

theorem BitOPComputes_byte_iff (hs : Proper st.store) (henv : env.Commits)
    (hop : (ofText op).byte = some f) :
    BitOPComputes db env st op dest srcs ↔
      srcs = [] ∨ (∃ k, srcs = [k] ∧ AlreadyEmpty db st.store dest k) ∨
        2 ≤ srcs.length ∧ ValidKey dest ∧ ∀ k ∈ srcs, ValidKey k := by
  have hnot := byte_ne_not hop
  have hother : ofText op ≠ .other := by
    intro h
    rw [h] at hop
    cases hop
  constructor
  · intro h
    match srcs with
    | [] => exact .inl rfl
    | [k] =>
      obtain ⟨hd, hnil, hget⟩ :=
        (putsValue_few_iff (by simp) _).mp (h.combines f hop (cons_ne_nil _ _))
      rw [bytewise_single hop] at hnil
      exact .inr (.inl ⟨k, rfl, hd, hnil, hget⟩)
    | src :: k :: ks =>
      obtain ⟨n, hn, -⟩ := h.combines f hop (cons_ne_nil _ _)
      refine .inr (.inr ⟨by simp, ?_, fun k' hk' => ?_⟩)
      · by_contra hd
        rw [BitOP_badKey hd] at hn
        cases hn
      · by_contra hkv
        -- moved behind the first place, the key is checked
        obtain ⟨e, he⟩ : ∃ e, (exec env (db.BitOP op dest (src :: k :: ks)) st).1 = .error e := by
          rcases mem_cons.mp hk' with rfl | hk'
          · rw [← h.anyOrder f hop (cons_ne_nil _ _) _ (List.Perm.swap k' k ks)]
            exact BitOP_badSource (.head _) hkv
          · exact BitOP_badSource hk' hkv
        rw [hn] at he
        cases he
  · intro h
    refine ⟨fun g hg hne => ?_, fun g hg hne srcs' hperm => ?_, fun h' => absurd h' hnot,
      fun h' => absurd h' (by simp [hnot, hother])⟩
    · obtain rfl := Option.some.inj (hop.symm.trans hg)
      rcases h with rfl | ⟨k, rfl, hd, hnil, hget⟩ | ⟨hlen, hd, hv⟩
      · exact absurd rfl hne
      · refine (putsValue_few_iff (by simp) _).mpr ⟨hd, ?_, hget⟩
        rw [bytewise_single hop, hnil]
      · rw [BitOP_combines hop hlen hd hv henv]
        exact ⟨_, rfl, bytewise_toInt hs f op srcs, OrderedMap.get_applyBatch_put _ _ _⟩
    · rcases h with rfl | ⟨k, rfl, -⟩ | ⟨hlen, hd, hv⟩
      · exact absurd rfl hne
      · rw [perm_singleton.mp hperm]
      · rw [BitOP_combines hop hlen hd hv henv, BitOP_combines hop (hperm.length_eq ▸ hlen) hd
          (fun k hk => hv k (hperm.mem_iff.mp hk)) henv,
          bytewise_perm hop (show (db.valuesOf st.store srcs').Perm (db.valuesOf st.store srcs)
            from hperm.map _)]

theorem BitOPComputes_not_iff (hop : ofText op = .BitNot) :
    BitOPComputes db env st op dest srcs ↔
      ∀ k, srcs = [k] → AlreadyEmpty db st.store dest k := by
  have hcompl : ∀ k, PutsValue db dest (((st.store.get (db.encodeKVKey k)).getD []).map (~~~ ·))
      (exec env (db.BitOP op dest [k]) st) ↔ AlreadyEmpty db st.store dest k := by
    intro k
    rw [putsValue_few_iff (by simp), map_eq_nil_iff]
    exact Iff.rfl
  constructor
  · rintro h k rfl
    exact (hcompl k).mp (h.complements hop k rfl)
  · intro h
    refine ⟨fun f hf => absurd hop (byte_ne_not hf),
      fun f hf => absurd hop (byte_ne_not hf), ?_, ?_⟩
    · rintro - k rfl
      exact (hcompl k).mpr (h k rfl)
    · rintro (hother | ⟨-, hlen⟩)
      · cases hop.symm.trans hother
      · by_cases hd : ValidKey dest
        · rw [BitOP_not hop hd hlen]
          exact ⟨⟨_, rfl⟩, rfl⟩
        · rw [BitOP_badKey hd]
          exact ⟨⟨_, rfl⟩, rfl⟩

theorem BitOPComputes_other_iff (henv : env.Commits) (hop : ofText op = .other) :
    BitOPComputes db env st op dest srcs ↔
      ¬ ValidKey dest ∨ 2 ≤ srcs.length ∧ ((∃ k ∈ srcs.tail, ¬ ValidKey k) ∨
        2 ≤ ((db.valuesOf st.store srcs).filter (· ≠ [])).length) := by
  have hnone : ∀ f, (ofText op).byte ≠ some f := by
    rw [hop]
    exact fun f hf => (by cases hf)
  have hrefuses : BitOPComputes db env st op dest srcs ↔
      ∃ e, (exec env (db.BitOP op dest srcs) st).1 = .error e := by
    constructor
    · exact fun h => (h.refuses (.inl hop)).1
    · rintro ⟨e, he⟩
      exact ⟨fun f hf => absurd hf (hnone f), fun f hf => absurd hf (hnone f),
        fun hnot => (by cases hop.symm.trans hnot), fun _ => ⟨⟨e, he⟩, exec_error he⟩⟩
  rw [hrefuses]
  by_cases hd : ValidKey dest
  · rw [or_iff_right (not_not.mpr hd)]
    by_cases hlen : srcs.length < 2
    · rw [BitOP_few hd hlen]
      exact iff_of_false (fun ⟨e, he⟩ => nomatch he) fun h => absurd h.1 (not_le.mpr hlen)
    · rw [and_iff_right (not_lt.mp hlen)]
      match srcs with
      | [] => simp at hlen
      | [_] => simp at hlen
      | src :: k :: ks =>
        have hloop : (∃ e, (exec env (db.BitOP op dest (src :: k :: ks)) st).1 = .error e) ↔
            ¬ ∃ r, (db.bitOPLoop (ofText op) ((st.store.get (db.encodeKVKey src)).getD [])
              (k :: ks)).eval env st.store = .ok r := by
          rw [BitOP_many hd (by rw [hop]; decide) (cons_ne_nil _ _)]
          cases (db.bitOPLoop (ofText op) ((st.store.get (db.encodeKVKey src)).getD [])
            (k :: ks)).eval env st.store with
          | error e => simp
          | ok r => simp [henv.commit]
        rw [hloop]
        simp only [bitOPLoop_ok, exists_and_left]
        rw [foldlM_bitCombine_unknown (by rw [hop]; rfl), not_and_or, not_le]
        simp only [not_forall, exists_prop]
        exact Iff.rfl
  · rw [BitOP_badKey hd]
    exact iff_of_true ⟨_, rfl⟩ (.inl hd)

theorem BitOP_computes_iff (h : Reached st.store) (henv : env.Commits) (db : DB) (op dest : Bytes)
    (srcs : List Bytes) :
    BitOPComputes db env st op dest srcs ↔ BitOPFits db st.store op dest srcs := by
  have hs := h.proper
  unfold BitOPFits
  cases hop : ofText op with
  | BitAND | BitOR | BitXOR => exact BitOPComputes_byte_iff hs henv (by rw [hop]; rfl)
  | BitNot => exact BitOPComputes_not_iff hop
  | other => exact BitOPComputes_other_iff henv hop

end

end

theorem BitOP_computes_two_sources :
    BitOPComputes DB.zero (Env.quiet 0) (oneString [12, 34]) (str "Xor") [107] [[108], [107]] := by
  have henv : (Env.quiet 0).Commits := ⟨rfl, fun _ _ => rfl⟩
  have hfits : BitOPFits DB.zero (oneString [12, 34]).store (str "Xor") [107] [[108], [107]] :=
    .inr (.inr (by decide))
  exact (BitOP_computes_iff (oneString_reached _) henv DB.zero (str "Xor") [107] [[108], [107]]).mpr
    hfits

theorem BitOP_one_source_or_unknown :
    ¬ BitOPComputes DB.zero (Env.quiet 0) (oneString [1, 2, 3]) (str "NOT") [100] [[107]] ∧
    ¬ BitOPComputes DB.zero (Env.quiet 0) (oneString [1, 2, 3]) (str "and") [100] [[107]] ∧
    ¬ BitOPComputes DB.zero (Env.quiet 0) (oneString [1, 2, 3]) (str "nand") [100]
      [[107], [108]] := by
  refine ⟨fun h => ?_, fun h => ?_, fun h => ?_⟩
  · obtain ⟨n, -, -, hget⟩ := h.complements (by decide) [107] rfl
    revert hget
    decide
  · obtain ⟨n, -, -, hget⟩ := h.combines (· &&& ·) rfl (List.cons_ne_nil _ _)
    revert hget
    decide
  · obtain ⟨⟨e, he⟩, -⟩ := h.refuses (.inl (by decide))
    cases he

end LedisDB
