import EventScript.Proofs.AcceptedWrites
import EventScript.Proofs.TextEncodings

/-!
# Blobs

What a blob is made from is read back from it, and its length is told from the base64 text without reading it. Where
texts of several pieces are joined, as when a blob is extended, padding in the middle ends what is read, and is taken
for bytes by the count.
-/

namespace EventScript

open Text

namespace Blob

/-! ### Joined pieces -/

/-- The base64 texts of some pieces, one after the other. -/
def joined (pieces : List (List UInt8)) : List Char := pieces.flatMap Base64.encode

/-- What is read of joined pieces: all up to the first one that ends with padding. -/
def legible : List (List UInt8) → List UInt8
  | [] => []
  | piece :: rest => if piece.length % 3 = 0 then piece ++ legible rest else piece

/-- What is counted of joined pieces: whole groups, but for the last piece that is not empty. -/
def counted : List (List UInt8) → Nat
  | [] => 0
  | piece :: rest => if rest.flatten = [] then piece.length else (piece.length + 2) / 3 * 3 + counted rest

/-- No padding comes before the end: each piece is made of whole groups, unless nothing comes after it. -/
def Seamless : List (List UInt8) → Prop
  | [] => True
  | piece :: rest => (piece.length % 3 = 0 ∨ rest.flatten = []) ∧ Seamless rest

theorem joined_eq_nil {pieces : List (List UInt8)} : joined pieces = [] ↔ pieces.flatten = [] := by
  simp [joined, Base64.encode_eq_nil]

theorem seamless_of_empty {pieces : List (List UInt8)} (h : pieces.flatten = []) : Seamless pieces := by
  induction pieces with
  | nil => trivial
  | cons piece rest ih =>
    have hrest := (List.append_eq_nil_iff.mp h).2
    exact ⟨.inr hrest, ih hrest⟩

theorem joined_ascii (pieces : List (List UInt8)) : ∀ c ∈ joined pieces, c.toNat < 128 := by
  intro c hc
  obtain ⟨piece, -, hc⟩ := List.mem_flatMap.mp hc
  exact Base64.encode_ascii piece c hc

theorem decodeFrom_joined (pieces : List (List UInt8)) (out : List UInt8) :
    Base64.decodeFrom { bytes := out } (joined pieces) = .ok (out.reverse ++ legible pieces) := by
  induction pieces generalizing out with
  | nil => simp [joined, Base64.decodeFrom, Base64.Cursor.finish, legible]
  | cons piece rest ih =>
    have hread := Base64.decodeFrom_encode out piece (joined rest)
    rw [ih] at hread
    change Base64.decodeFrom _ (Base64.encode piece ++ joined rest) = _
    rw [hread, legible]
    split
    · rw [List.reverse_append, List.reverse_reverse, List.append_assoc]
    · rfl

theorem decode_joined (pieces : List (List UInt8)) : Base64.decode (joined pieces) = .ok (legible pieces) := by
  rw [Base64.decode_of_ascii (joined_ascii pieces)]
  exact decodeFrom_joined pieces []

/-- The length and the padding of joined pieces. -/
theorem count_joined (pieces : List (List UInt8)) :
    (joined pieces).length % 4 = 0 ∧
      (joined pieces).length * 3 / 4 - ((joined pieces).drop ((joined pieces).length - 2)).count '=' =
        counted pieces := by
  induction pieces with
  | nil => exact ⟨rfl, rfl⟩
  | cons piece rest ih =>
    have hlen := Base64.length_encode piece
    have hsplit : joined (piece :: rest) = Base64.encode piece ++ joined rest := rfl
    obtain ⟨hfours, hcount⟩ := ih
    rw [hsplit, List.length_append, counted]
    by_cases hempty : rest.flatten = []
    · have hpad := Base64.padding_encode piece
      rw [if_pos hempty, joined_eq_nil.mpr hempty, List.append_nil, List.length_nil, Nat.add_zero, hpad]
      omega
    · have hpos : 0 < (joined rest).length := List.length_pos_iff.mpr (mt joined_eq_nil.mp hempty)
      have hend : (Base64.encode piece).length + (joined rest).length - 2 =
          (Base64.encode piece).length + ((joined rest).length - 2) := by omega
      have hfew : ((joined rest).drop ((joined rest).length - 2)).count '=' ≤ 2 := by
        refine Nat.le_trans List.count_le_length ?_
        rw [List.length_drop]
        omega
      rw [if_neg hempty, hend, List.drop_length_add_append, ← hcount]
      omega

variable {blob : Blob} {pieces : List (List UInt8)}

theorem bytes_of_joined (h : blob.data.toList = joined pieces) : blob.bytes = .ok (legible pieces) := by
  unfold bytes
  rw [h, decode_joined]

theorem text_of_joined (h : blob.data.toList = joined pieces) :
    blob.text = .ok (String.ofList (Utf8.decode (legible pieces))) := by
  unfold text
  rw [bytes_of_joined h]
  rfl

theorem byteLength_of_joined (h : blob.data.toList = joined pieces) : blob.byteLength = counted pieces := by
  obtain ⟨hfours, hcount⟩ := count_joined pieces
  unfold byteLength
  simp only [h, hfours, beq_self_eq_true, if_true]
  exact hcount

/-- What is read is all there is just if there is no padding before the end. -/
theorem legible_eq_iff (pieces : List (List UInt8)) : legible pieces = pieces.flatten ↔ Seamless pieces := by
  induction pieces with
  | nil => exact iff_of_true rfl trivial
  | cons piece rest ih =>
    rw [legible, Seamless, List.flatten_cons]
    split
    · rename_i hthree
      rw [List.append_cancel_left_eq, ih]
      exact ⟨fun h => ⟨.inl hthree, h⟩, And.right⟩
    · rename_i hthree
      rw [List.self_eq_append_right]
      exact ⟨fun h => ⟨.inr h, seamless_of_empty h⟩, fun h => h.1.resolve_left hthree⟩

theorem le_counted (pieces : List (List UInt8)) : pieces.flatten.length ≤ counted pieces := by
  induction pieces with
  | nil => exact Nat.le_refl _
  | cons piece rest ih =>
    rw [counted, List.flatten_cons, List.length_append]
    split
    · rename_i hempty
      rw [hempty]
      exact Nat.le_refl _
    · omega

/-- What is counted is all there is just if there is no padding before the end. -/
theorem counted_eq_iff (pieces : List (List UInt8)) : counted pieces = pieces.flatten.length ↔ Seamless pieces := by
  induction pieces with
  | nil => exact iff_of_true rfl trivial
  | cons piece rest ih =>
    rw [counted, Seamless, List.flatten_cons, List.length_append]
    split
    · rename_i hempty
      rw [hempty]
      exact iff_of_true rfl ⟨.inr rfl, seamless_of_empty hempty⟩
    · rename_i hempty
      have hle := le_counted rest
      rw [← ih, or_iff_left hempty]
      omega

/-! ### What a blob was made from -/

theorem ofBytes_joined (bytes : List UInt8) (mime : String) (name : Option String) :
    (ofBytes bytes mime name).data.toList = joined [bytes] :=
  String.toList_ofList.trans (List.append_nil _).symm

/-- Bytes and texts are read back from the blobs that are made of them, and counted right. -/
theorem reads_back (mime : String) (name : Option String) :
    (∀ bytes : List UInt8, (ofBytes bytes mime name).bytes = .ok bytes ∧
      (ofBytes bytes mime name).byteLength = bytes.length) ∧
    ∀ t : String, (ofText t mime name).text = .ok t ∧
      (ofText t mime name).bytes = .ok t.toByteArray.data.toList ∧
      (ofText t mime name).byteLength = t.utf8ByteSize := by
  have hbytes (bytes : List UInt8) : (ofBytes bytes mime name).bytes = .ok bytes ∧
      (ofBytes bytes mime name).byteLength = bytes.length := by
    refine ⟨?_, byteLength_of_joined (ofBytes_joined bytes mime name)⟩
    change Base64.decode (String.ofList (Base64.encode bytes)).toList = .ok bytes
    rw [String.toList_ofList, Base64.decode_encode]
  refine ⟨hbytes, fun t => ?_⟩
  obtain ⟨hread, hcount⟩ := hbytes (Utf8.encode t.toList)
  refine ⟨?_, hread.trans (by rw [Utf8.encode_toList]), hcount.trans (Utf8.length_encode_toList t)⟩
  unfold text ofText
  rw [hread]
  change Except.ok (String.ofList (Utf8.decode (Utf8.encode t.toList))) = _
  rw [Utf8.decode_encode, String.ofList_toList]

end Blob

/-! ### Extending a blob in the store -/

/-- A blob with text added to its data. -/
def Blob.extended (blob : Blob) (s : String) : Blob := { blob with data := blob.data ++ s }

theorem Blob.extended_extended (blob : Blob) (s t : String) :
    (blob.extended s).extended t = blob.extended (s ++ t) :=
  congrArg (Blob.mk blob.mime · blob.name) String.append_assoc

theorem Store.setBlob_setBlob (s : Store) (b : BlobId) (x y : Blob) :
    (s.setBlob b x).setBlob b y = s.setBlob b y := by
  unfold Store.setBlob
  rw [Array.setIfInBounds_setIfInBounds]

namespace World

/-- A world in which text was added to the data of a blob. -/
def extended (w : World) (b : BlobId) (s : String) : World :=
  { w with store := w.store.setBlob b ((w.store.blob b).extended s) }

/-- A path from a root leads to a blob, without a handle on the way, and can be written along. -/
structure HoldsBlob (w : World) (scope : ScopeId) (r : Root) (parts : List Part) (b : BlobId) : Prop where
  writable : r.key.isWritable = true
  replaceable : parts = [] → r.key.isReplaceable = true
  track : w.Track w.limits parts (w.rootContents scope r.key)
  target : w.target parts (w.rootContents scope r.key) = .blob b
  has : w.Has (.blob b)

variable {w : World} {scope : ScopeId} {r : Root} {parts : List Part} {b : BlobId} {s : String}

theorem changedAt_extended (w : World) (b : BlobId) (s : String) : ChangedAt (.blob b) w (w.extended b s) :=
  changedAt_setBlob w b _

theorem blob_extended (hb : w.Has (.blob b)) :
    (w.extended b s).store.blob b = (w.store.blob b).extended s :=
  (Store.blob_setBlob w.store b b _).trans (if_pos ⟨rfl, hb⟩)

theorem extended_empty (w : World) (b : BlobId) : w.extended b "" = w := by
  unfold extended Blob.extended
  rw [String.append_empty]
  change ({ w with store := w.store.setBlob b (w.store.blob b) } : World) = w
  unfold Store.setBlob Store.blob
  rw [setIfInBounds_getD]

theorem extended_extended (hb : w.Has (.blob b)) (t : String) :
    (w.extended b s).extended b t = w.extended b (s ++ t) := by
  have hstore : (w.extended b s).store.setBlob b (((w.extended b s).store.blob b).extended t) =
      w.store.setBlob b ((w.store.blob b).extended (s ++ t)) := by
    rw [blob_extended hb, Blob.extended_extended]
    exact Store.setBlob_setBlob ..
  exact congrArg (fun store => ({ w with store := store } : World)) hstore

theorem chain_extended (w : World) (b : BlobId) (s : String) (scope : ScopeId) :
    (w.extended b s).chain scope = w.chain scope :=
  chainFrom_congr _ _ fun _ _ => rfl

theorem rootContents_extended (w : World) (b : BlobId) (s : String) (scope : ScopeId) (key : RootKey) :
    (w.extended b s).rootContents scope key = w.rootContents scope key := by
  have hchain := w.chain_extended b s scope
  cases key with
  | component | c | args =>
    simp only [rootContents, rootCell?, componentCell?, argsCell?, hchain]
    rfl
  | _ => rfl

theorem next_extended (w : World) (b : BlobId) (s : String) (v : Value) (part : Part) :
    (w.extended b s).next v part = w.next v part := by
  cases part with
  | index i => cases v <;> rfl
  | key k =>
    cases v with
    | context c =>
      have hchain := w.chain_extended b s (w.store.view c)
      change ((w.extended b s).lookup? (w.store.view c) (.str k)).getD .null = _
      unfold lookup?
      rw [hchain]
      rfl
    | _ => rfl
  | _ => rfl

theorem HoldsBlob.isStatic (h : w.HoldsBlob scope r parts b) : (Path.mk (.root r) parts).isStatic = true := by
  rw [Path.isStatic_root]
  exact h.track.isStatic

theorem HoldsBlob.present (h : w.HoldsBlob scope r parts b) :
    (w.target parts (w.rootContents scope r.key)).isNull = false := by
  rw [h.target]
  rfl

/-- What a blob that was made of some bytes holds, once it is extended by the texts of some pieces. -/
theorem HoldsBlob.data_extended (h : w.HoldsBlob scope r parts b) {x : List UInt8} {mime : String}
    {name : Option String} (hx : w.store.blob b = .ofBytes x mime name) (ys : List (List UInt8)) :
    ((w.extended b (String.ofList (Blob.joined ys))).store.blob b).data.toList = Blob.joined (x :: ys) := by
  rw [blob_extended h.has, hx]
  unfold Blob.extended Blob.ofBytes
  rw [String.toList_append, String.toList_ofList, String.toList_ofList]
  rfl

theorem HoldsBlob.extended (h : w.HoldsBlob scope r parts b) (s : String) :
    (w.extended b s).HoldsBlob scope r parts b := by
  have hchange := w.changedAt_extended b s
  have hroot := w.rootContents_extended b s scope r.key
  have hsame : ∀ st ∈ w.steps parts (w.rootContents scope r.key),
      (w.extended b s).next st.1 st.2.1 = w.next st.1 st.2.1 := fun st _ => w.next_extended b s st.1 st.2.1
  obtain ⟨hsteps, htarget⟩ := way_congr hsame
  exact {
    writable := h.writable
    replaceable := h.replaceable
    track := hroot ▸ h.track.congr hchange.knows hsteps
    target := by rw [hroot, htarget, h.target]
    has := hchange.has _ h.has }

end World

namespace Path

open World

variable {w : World}

section Reading

variable {read : HandleId → Exec Value}

/-- An entry that is there is read as it is, whatever stands for a missing one. -/
theorem stepKey_present (limits : Limits) (markAbsent : Bool) {v : Value} {k : String}
    (hn : (w.next v (.key k)).isNull = false) :
    stepKey read limits v k markAbsent w = .ok (w.next v (.key k)) w := by
  obtain ⟨u, hu⟩ : ∃ u, w.valueAt? v (.str k) = some u := by
    cases hv : w.valueAt? v (.str k) with
    | some u => exact ⟨u, rfl⟩
    | none =>
      simp only [World.next, hv, Option.getD_none] at hn
      cases hn
  have hplain : ∀ h, v ≠ .handle h := by
    rintro h rfl
    cases hu
  have hnext : w.next v (.key k) = u := by simp only [World.next, hu, Option.getD_some]
  have hkind : v.kind = .object := by cases v <;> first | rfl | cases hu
  have hfollow := congrFun (follow_of_not_handle read limits.handleDepth v hplain) w
  rw [stepKey_of_follow hfollow (.inr hkind), hu, hnext]
  rfl

/-- Where there is something at the end of a path, nothing on it is missing. -/
theorem walk_present (limits : Limits) (text : String) (markAbsent : Bool) {parts : List Part} {v : Value}
    (hr : w.Reads parts v (w.target parts v)) (hv : ∀ y ∈ w.passed parts v, ∀ h, y ≠ .handle h)
    (hn : (w.target parts v).isNull = false) :
    walk read limits text markAbsent parts v w = .ok (w.target parts v) w := by
  have hplain : walk read limits text false parts v w = .ok (w.target parts v) w := walk_of_reads limits text hr hv
  cases parts with
  | nil => exact hplain
  | cons part rest =>
    cases part with
    | key k =>
      have hnext : (w.next v (.key k)).isNull = false := Bool.eq_false_iff.mpr fun hnull => by
        have htarget : (w.target rest (w.next v (.key k))).isNull = true := World.target_isNull hnull
        exact Bool.false_ne_true (hn.symm.trans htarget)
      refine (Exec.bind_ok (stepKey_present limits markAbsent hnext)).trans ?_
      exact walk_of_reads limits text hr.2 fun y hy => hv y (List.mem_cons_of_mem _ hy)
    | _ => exact hplain

end Reading

variable {scope : ScopeId} {r : Root} {parts : List Part} {b : BlobId}

theorem writeStatic_extends (h : HandleAccess) (hb : w.HoldsBlob scope r parts b) (s : String) :
    writeStatic h w.limits (.mk (.root r) parts) scope (.str s) .blobExtend false w = .ok () (w.extended b s) := by
  have happly (text : String) : writeParts h w.limits text .blobExtend (.str s) []
      (w.target parts (w.rootContents scope r.key)) w =
        .ok (w.target parts (w.rootContents scope r.key)) (w.extended b s) := by
    have hblob : ∀ x, Value.blob b ≠ .handle x := nofun
    have hstr : ∀ x, Value.str s ≠ .handle x := nofun
    rw [hb.target]
    change applyOp h w.limits .blobExtend (.blob b) (.str s) w = _
    rw [applyOp_eq h w.limits .blobExtend (.str s) hblob]
    dsimp only
    rw [stored_of_not_handle _ _ _ hstr]
    rfl
  have hparts (text : String) := hb.track.writes hb.present (happly text) fun st _ => w.next_extended b s st.1 st.2.1
  simp only [List.append_nil] at hparts
  rw [writeStatic_writable hb.writable hb.replaceable, Exec.bind_ok (hparts _), bne_self_eq_false]
  rfl

end Path

namespace Engine

open World

/-- Extends the blob at a path by some pieces, each as its base64 text, one after the other. -/
def extendBlobAt (g : Engine) (p : Path) (scope : ScopeId) : List (List UInt8) → Exec Unit
  | [] => pure ()
  | piece :: rest => do
    g.writePath p scope (.str (String.ofList (Base64.encode piece))) .blobExtend false
    g.extendBlobAt p scope rest

/-- Called with a blob, a function sees what is in it, be it the blob itself or a copy. -/
theorem callFunction_blob (em : Embedding) (g : Engine) (name : String) {f : Function} {builtin : Builtin}
    (hf : f.callee = .builtin builtin) {w : World} {b : BlobId} {r : Value}
    (hrun : ∀ w' c, w'.store.blob c = w.store.blob b → builtin.run g.access.read [.blob c] w' = .ok r w') :
    ∃ w', callFunction em g name f [.blob b] w = .ok r w' := by
  have called (c : BlobId) (w₁ : World) (hc : w₁.store.blob c = w.store.blob b) : ∃ w₂,
      (do
        Exec.debugLine ["CALL", name, "argc", toString [Value.blob c].length]
        tryCatch (builtin.apply g.access.read [.blob c]) fun e =>
          if e.isOwn then throw e else Exec.fail (.functionFailed name e.report) : Exec Value) w₁ = .ok r w₂ := by
    obtain ⟨w₂, hdebug, hstore⟩ : ∃ w₂, Exec.debugLine ["CALL", name, "argc", toString [Value.blob c].length] w₁ =
        .ok () w₂ ∧ w₂.store = w₁.store := by
      refine ⟨_, rfl, ?_⟩
      dsimp only
      split <;> rfl
    refine ⟨w₂, (Exec.bind_ok hdebug).trans (Exec.tryCatch_ok ?_)⟩
    exact hrun w₂ c (by rw [hstore, hc])
  unfold callFunction
  rw [hf]
  split
  · exact called b w rfl
  · -- What does not share the values of its caller is called with a copy of the blob.
    refine called w.store.blobs.size { w with store := (w.store.newBlob (w.store.blob b)).2 } ?_
    simp [Store.newBlob, Store.blob]

variable {w : World} {scope : ScopeId} {r : Root} {parts : List Part} {b : BlobId}

theorem resolvePath_blob (g : Engine) (hb : w.HoldsBlob scope r parts b) :
    g.resolvePath (.mk (.root r) parts) (some scope) w = .ok (.blob b) w := by
  have hroot : Path.rootOf r (some scope) w = .ok (w.rootContents scope r.key) w := by
    have hkey := RootKey.isWritable_iff.mp hb.writable
    rw [← Exec.rootValue_cell hkey scope r.caret]
    unfold Path.rootOf
    cases hk : r.key <;> first | rfl | simp [hk] at hkey
  rw [resolvePath_static hb.isStatic]
  refine (Exec.bind_ok hroot).trans ?_
  rw [← hb.target]
  exact Path.walk_present w.limits _ _ hb.track.reads hb.track.passed_plain hb.present

theorem extendBlobAt_run (g : Engine) (hb : w.HoldsBlob scope r parts b) (pieces : List (List UInt8)) :
    g.extendBlobAt (.mk (.root r) parts) scope pieces w =
      .ok () (w.extended b (String.ofList (Blob.joined pieces))) := by
  induction pieces generalizing w with
  | nil =>
    change EStateM.Result.ok () w = .ok () (w.extended b "")
    rw [extended_empty]
  | cons piece rest ih =>
    have hwrite := Path.writeStatic_extends g.access hb (String.ofList (Base64.encode piece))
    rw [← writePath_static hb.isStatic] at hwrite
    refine (Exec.bind_ok hwrite).trans ((ih (hb.extended _)).trans ?_)
    rw [extended_extended hb.has, ← String.ofList_append]
    rfl

/-- Extending a blob at a path, piece by piece, always works, and the path still leads to the blob. What is read of it,
by whatever means, is all up to the first padding, and its length counts whole groups; either is right just if there is
no padding before the end. -/
theorem extended_blob_reads (em : Embedding) (g : Engine) (hb : w.HoldsBlob scope r parts b) {x : List UInt8}
    {mime : String} {name : Option String} (hx : w.store.blob b = .ofBytes x mime name) (ys : List (List UInt8)) :
    ∃ w', g.extendBlobAt (.mk (.root r) parts) scope ys w = .ok () w' ∧
      g.resolvePath (.mk (.root r) parts) (some scope) w' = .ok (.blob b) w' ∧
      (w'.store.blob b).bytes = .ok (Blob.legible (x :: ys)) ∧
      (w'.store.blob b).byteLength = Blob.counted (x :: ys) ∧
      (∀ function f, f.callee = .builtin .blobLen →
        ∃ w'', callFunction em g function f [.blob b] w' = .ok (.int (Blob.counted (x :: ys))) w'') ∧
      (∀ function f, f.callee = .builtin .blobAsText →
        ∃ w'', callFunction em g function f [.blob b] w' =
          .ok (.str (String.ofList (Utf8.decode (Blob.legible (x :: ys))))) w'') ∧
      (Blob.legible (x :: ys) = x ++ ys.flatten ↔ Blob.Seamless (x :: ys)) ∧
      (Blob.counted (x :: ys) = (x ++ ys.flatten).length ↔ Blob.Seamless (x :: ys)) := by
  have hb' := hb.extended (String.ofList (Blob.joined ys))
  have hdata := hb.data_extended hx ys
  refine ⟨_, g.extendBlobAt_run hb ys, g.resolvePath_blob hb', Blob.bytes_of_joined hdata,
    Blob.byteLength_of_joined hdata, fun function f hf => ?_, fun function f hf => ?_, Blob.legible_eq_iff _,
    Blob.counted_eq_iff _⟩
  · refine callFunction_blob em g function hf fun w'' c hc => ?_
    refine congrArg (fun n : Nat => EStateM.Result.ok (Value.int n) w'') ?_
    rw [hc, Blob.byteLength_of_joined hdata]
  · refine callFunction_blob em g function hf fun w'' c hc => ?_
    have htext := Blob.text_of_joined hdata
    rw [← hc] at htext
    change (Exec.ofExcept .base64 (w''.store.blob c).text >>= fun t => pure (Value.str t) : Exec Value) w'' = _
    rw [htext]
    rfl

/-- A blob that is made of some bytes, under a key of the global object. -/
def blobWorld (bytes : List UInt8) : World where
  store := {
    objects := #[[(.str "b", .blob 0)]]
    blobs := #[.ofBytes bytes "text/plain" none]
    cells := #[{ value := .object 0 }, { value := .null }] }
  stateCell := 1

theorem blobWorld_holds (bytes : List UInt8) : (blobWorld bytes).HoldsBlob 0 { key := .global } [.key "b"] 0 where
  writable := rfl
  replaceable := nofun
  track := by
    refine track_cons.mpr ⟨⟨nofun, ⟨fun x hx => ?_, nofun⟩, .inr rfl, nofun⟩, .nil _ _ _⟩
    rw [List.mem_singleton.mp hx]
    exact Nat.one_pos
  target := rfl
  has := Nat.one_pos

/-- After three bytes two more are read and counted right. -/
theorem three_bytes_are_extended :
    ∃ w', (full .plain).extendBlobAt (.mk (.root { key := .global }) [.key "b"]) 0 [[4, 5]] (blobWorld [1, 2, 3]) =
        .ok () w' ∧ (w'.store.blob 0).bytes = .ok [1, 2, 3, 4, 5] ∧ (w'.store.blob 0).byteLength = 5 := by
  obtain ⟨w', hrun, -, hbytes, hlength, -⟩ :=
    extended_blob_reads .plain (full .plain) (blobWorld_holds [1, 2, 3]) rfl [[4, 5]]
  exact ⟨w', hrun, hbytes, hlength⟩

/-- Two bytes extended by two others: only the first two are read, and five are counted. -/
theorem two_bytes_hide_what_follows :
    ∃ w', (full .plain).extendBlobAt (.mk (.root { key := .global }) [.key "b"]) 0 [[104, 105]]
        (blobWorld [104, 105]) = .ok () w' ∧
      (w'.store.blob 0).bytes = .ok [104, 105] ∧ (w'.store.blob 0).bytes ≠ .ok [104, 105, 104, 105] ∧
      (w'.store.blob 0).byteLength = 5 := by
  have hb := blobWorld_holds [104, 105]
  have hdata := hb.data_extended rfl [[104, 105]]
  have hbytes := Blob.bytes_of_joined hdata
  refine ⟨_, (full .plain).extendBlobAt_run hb [[104, 105]], hbytes, ?_, Blob.byteLength_of_joined hdata⟩
  rw [hbytes]
  nofun

end Engine

end EventScript
