import LuaTypes.Proofs.Inference.Enclosure
import LuaTypes.Proofs.Inference.WriteOnce

/-!
# Requests that stay in their file

A request that follows no modules reads and writes those entries of the memo which are kept under
its reach and an expression of its file, and other requests do neither. So what it answers is the
same in all codebases that say the same of the file, whichever requests share the memo: of a history
of requests only those count that stay in the file.

* `Question`, `Turn`: what may be asked of a codebase, and a request on a trail of its own;
  `Codebase.take`, `Codebase.after`, `Codebase.answersWithin`: requests that share a memo;
* `Memo.AgreeWithin`: two memos hold the same of a file, as far as no modules are followed;
* `Codebase.SameIn`: two codebases say the same of a file; `Codebase.SameIn.typeOf`: their rules ask
  the same;
* `Codebase.SameIn.probe_alike`: two runs find the same, and leave memos that hold the same;
* `Codebase.StaysInFiles.take_other`: other requests leave the entries of the file alone;
* `Codebase.answersWithin_filter`, `Codebase.SameIn.answersWithin_eq`: whole histories.
-/

namespace LuaTypes

/-! ### Requests -/

/-- What may be asked of a codebase: the type of an expression, what the rules of operators, calls
and function bodies give, and the type of what a file returns. -/
inductive Question where
  | typeOf (e : Filed Expr)
  | unary (un : Filed Node)
  | binary (bin : Filed Node)
  | call (call : Filed Node)
  | body (body : Filed Node)
  | returns (body : Filed Node)
  | exported (file : FileNumber)

namespace Question

/-- The file that is asked about. -/
def file : Question → FileNumber
  | .typeOf e => e.file
  | .unary node | .binary node | .call node | .body node | .returns node => node.file
  | .exported file => file

/-- What finding the answer takes. -/
def inquiry (codebase : Codebase) (reach : Reach) : Question → Inquiry Ty
  | .typeOf e => .typeOf e
  | .unary un => typeOfUnary un
  | .binary bin => typeOfBinary bin
  | .call node => typeOfCall codebase reach node
  | .body node => typeOfBody codebase node
  | .returns node => typeOfReturns node
  | .exported file => typeOfExport codebase file

/-- A question about some nodes. -/
def LiesIn (codebase : Codebase) (S : Filed Node → Prop) : Question → Prop
  | .typeOf e => ExprIn S e
  | .unary node | .binary node | .call node | .body node | .returns node => S node
  | .exported file => ∀ root, codebase.root? file = some root → S ⟨file, root⟩

theorem liesIn_file (codebase : Codebase) (question : Question) :
    question.LiesIn codebase fun node => node.file = question.file := by
  cases question with
  | exported file => exact fun _ _ => rfl
  | _ => exact rfl

theorem liesIn_all (codebase : Codebase) (question : Question) :
    question.LiesIn codebase fun _ => True := by
  cases question with
  | exported file => exact fun _ _ => trivial
  | _ => trivial

end Question

/-- Every question about nodes that are not left is such an inquiry as the rules are. -/
theorem Codebase.Enclosure.inquiry {fails : Prop} {codebase : Codebase} {reach : Reach}
    {S : Filed Node → Prop} {Known : Ty → Prop} (h : Enclosure fails codebase reach S Known)
    {question : Question} (hquestion : question.LiesIn codebase S) :
    (question.inquiry codebase reach).Keeps fails (ExprIn S) Known Known := by
  cases question with
  | typeOf e => exact .typeOf hquestion
  | unary un => exact h.typeOfUnary hquestion
  | binary bin => exact h.typeOfBinary hquestion
  | call call => exact h.typeOfCall hquestion
  | body body => exact h.typeOfBody hquestion
  | returns body => exact h.typeOfReturns hquestion
  | exported file => exact h.typeOfExport hquestion

/-- A request: what it may look at, what happens to its trail beforehand, and what is asked. -/
structure Turn where
  reach : Reach
  steps : List Scopes.Step
  question : Question

namespace Turn

/-- A request about a file that follows no modules. -/
def isWithin (file : FileNumber) (turn : Turn) : Bool :=
  turn.reach = .ownFile && turn.question.file = file

theorem isWithin_iff {file : FileNumber} {turn : Turn} :
    turn.isWithin file = true ↔ turn.reach = .ownFile ∧ turn.question.file = file := by
  simp [isWithin]

/-- The trail on which the question is asked. -/
def trail (turn : Turn) : Trail := ((Scopes.fresh turn.reach).run turn.steps).trail

theorem consistent_trail (turn : Turn) : turn.trail.Consistent :=
  Scopes.consistent_run turn.reach turn.steps

@[simp] theorem reach_trail (turn : Turn) : turn.trail.reach = turn.reach :=
  Scopes.reach_run _ turn.steps

end Turn

namespace Codebase

/-- The answer to a request within a budget, and the memo that it leaves. -/
def takeWithin (codebase : Codebase) (budget : Nat) (turn : Turn) (memo : Option Memo) :
    Outcome Ty × Option Memo :=
  let (outcome, state) := (turn.question.inquiry codebase turn.reach).run
    (codebase.inferWithin budget) ⟨turn.trail, memo⟩
  (outcome, state.memo)

/-- The answer to a request, and the memo that it leaves. -/
def take (codebase : Codebase) (turn : Turn) (memo : Option Memo) : Outcome Ty × Option Memo :=
  codebase.takeWithin codebase.budget turn memo

/-- The memo after requests that come one after the other. -/
def after (codebase : Codebase) (turns : List Turn) (memo : Option Memo) : Option Memo :=
  turns.foldl (fun memo turn => (codebase.take turn memo).2) memo

/-- The answers to those of the requests that are about a file and follow no modules. All of the
requests come one after the other and share a memo. -/
def answersWithin (codebase : Codebase) (file : FileNumber) :
    List Turn → Option Memo → List (Outcome Ty)
  | [], _ => []
  | turn :: rest, memo =>
    let (outcome, left) := codebase.take turn memo
    if turn.isWithin file then outcome :: codebase.answersWithin file rest left
    else codebase.answersWithin file rest left

/-- Requests neither begin nor give up to use a memo. -/
theorem isSome_after (codebase : Codebase) (turns : List Turn) (memo : Option Memo) :
    (codebase.after turns memo).isSome = memo.isSome := by
  induction turns generalizing memo with
  | nil => rfl
  | cons turn rest ih =>
    have hused : (codebase.take turn memo).2.isSome = memo.isSome :=
      (run_growsOff turn.consistent_trail (turn.question.inquiry codebase turn.reach) memo).used
    exact (ih _).trans hused

/-- What a request finds below the keys that are under way on its trail. -/
def foundWithin (codebase : Codebase) (budget : Nat) (turn : Turn) (memo : Option Memo) :
    Finding Ty :=
  (turn.question.inquiry codebase turn.reach).probe
    (codebase.probe turn.reach budget turn.trail.keys) memo

theorem takeWithin_eq (codebase : Codebase) (budget : Nat) (turn : Turn) (memo : Option Memo) :
    codebase.takeWithin budget turn memo =
      ((codebase.foundWithin budget turn memo).outcome,
        (codebase.foundWithin budget turn memo).memo) := by
  have hrun := codebase.run_inferWithin_eq budget turn.consistent_trail
    (turn.question.inquiry codebase turn.reach) memo
  rw [turn.reach_trail] at hrun
  rw [takeWithin, hrun]
  rfl

end Codebase

/-! ### Memos that hold the same of a file -/

namespace Memo

/-- Two memos hold the same of the expressions of a file, as far as no modules are followed; or none
is used. -/
structure AgreeWithin (file : FileNumber) (a b : Option Memo) : Prop where
  used : a.isSome = b.isSome
  entries : ∀ key : Key, key.file = file →
    a.bind (·.get? ⟨key, .ownFile⟩) = b.bind (·.get? ⟨key, .ownFile⟩)

namespace AgreeWithin

variable {file : FileNumber} {a b c : Option Memo}

theorem refl (memo : Option Memo) : AgreeWithin file memo memo := ⟨rfl, fun _ _ => rfl⟩

theorem symm (h : AgreeWithin file a b) : AgreeWithin file b a :=
  ⟨h.used.symm, fun key hkey => (h.entries key hkey).symm⟩

theorem trans (h : AgreeWithin file a b) (h' : AgreeWithin file b c) : AgreeWithin file a c :=
  ⟨h.used.trans h'.used, fun key hkey => (h.entries key hkey).trans (h'.entries key hkey)⟩

/-- The same entry is kept in both. -/
theorem insert (h : AgreeWithin file a b) (key : MemoKey) (ty : Ty) :
    AgreeWithin file (a.map (·.insert key ty)) (b.map (·.insert key ty)) := by
  refine ⟨by simpa using h.used, fun key' hkey' => ?_⟩
  have hentry := h.entries key' hkey'
  have hused := h.used
  cases a <;> cases b <;> simp_all [get?_insert]

/-- An entry of another file, or of a request that follows modules, is kept in one of them. -/
theorem insert_other (h : AgreeWithin file a b) {key : MemoKey}
    (hkey : key.reach = .full ∨ key.expr.file ≠ file) (ty : Ty) :
    AgreeWithin file a (b.map (·.insert key ty)) := by
  refine ⟨by simpa using h.used, fun key' hkey' => ?_⟩
  rw [h.entries key' hkey']
  have hother : (⟨key', .ownFile⟩ : MemoKey) ≠ key := by
    rintro rfl
    rcases hkey with hreach | hfile
    · cases hreach
    · exact hfile hkey'
  cases b with
  | none => rfl
  | some memo => simp [get?_insert, hother]

/-- The entries of another file are taken out of one of them. -/
theorem invalidate_other {other : FileNumber} (hother : other ≠ file) (memo : Memo) :
    AgreeWithin file (some (memo.invalidate other)) (some memo) := by
  refine ⟨rfl, fun key hkey => ?_⟩
  simp [get?_invalidate, hkey, hother.symm]

/-- A memo from which the entries of the file are taken out holds of it what the empty one does. -/
theorem invalidate_empty (memo : Memo) :
    AgreeWithin file (some (memo.invalidate file)) (some .empty) := by
  refine ⟨rfl, fun key hkey => ?_⟩
  simp [get?_invalidate, hkey]

end AgreeWithin

end Memo

/-! ### Two runs -/

/-- Two findings end alike, and the memos hold the same of a file. -/
structure Finding.Alike {α : Type} (file : FileNumber) (a b : Finding α) : Prop where
  outcome : a.outcome = b.outcome
  cut : a.cut = b.cut
  memo : Memo.AgreeWithin file a.memo b.memo

theorem Finding.Alike.leave {file : FileNumber} {a b : Finding Ty} (h : a.Alike file b)
    (key : MemoKey) (depth : Nat) : (a.leave key depth).Alike file (b.leave key depth) := by
  obtain ⟨outcome, cut, memo⟩ := a
  obtain ⟨outcome', cut', memo'⟩ := b
  obtain ⟨rfl, rfl, hmemo⟩ := h
  refine ⟨rfl, rfl, ?_⟩
  cases outcome with
  | value ty =>
    by_cases hfinal : cut.all (depth ≤ ·) = true
    · simp only [Finding.leave, Finding.isFinalAt, hfinal, if_true]
      exact hmemo.insert key ty
    · simp only [Finding.leave, Finding.isFinalAt, hfinal]
      exact hmemo
  | failed foreign => exact hmemo
  | exhausted => exact hmemo

/-- Where questions are answered alike, inquiries end alike. -/
theorem Inquiry.Keeps.probe_alike {α : Type} {fails : Prop} {file : FileNumber}
    {Asked : Filed Expr → Prop} {Out : α → Prop} {look look' : Looker}
    (hlook : ∀ e memo memo', Asked e → Memo.AgreeWithin file memo memo' →
      (look e memo).Alike file (look' e memo'))
    {inquiry : Inquiry α} (h : inquiry.Keeps fails Asked (fun _ => True) Out)
    {memo memo' : Option Memo} (hmemo : Memo.AgreeWithin file memo memo') :
    (inquiry.probe look memo).Alike file (inquiry.probe look' memo') := by
  induction h generalizing memo memo' with
  | done _ => exact ⟨rfl, rfl, hmemo⟩
  | fail _ foreign => exact ⟨rfl, rfl, hmemo⟩
  | @ask e next he _ ih =>
    obtain ⟨hout, hcut, hleft⟩ := hlook e memo memo' he hmemo
    simp only [Inquiry.probe, ← hout, ← hcut]
    cases (look e memo).outcome with
    | value ty =>
      obtain ⟨hout', hcut', hleft'⟩ := ih ty trivial hleft
      exact ⟨hout', by simp only [Finding.after, hcut'], hleft'⟩
    | failed foreign => exact ⟨rfl, rfl, hleft⟩
    | exhausted => exact ⟨rfl, rfl, hleft⟩

namespace Codebase

/-- Requests that follow no modules stay in their file, and in the codebase. -/
structure StaysInFiles (codebase : Codebase) : Prop where
  file : ∀ file, Enclosure True codebase .ownFile (fun node => node.file = file) fun _ => True
  nodes : Enclosure True codebase .ownFile codebase.HasNode fun _ => True

/-- Two codebases say the same of a file, as far as no modules are followed. -/
structure SameIn (file : FileNumber) (a b : Codebase) : Prop where
  conventions : a.conventions = b.conventions
  root : a.root? file = b.root? file
  bindingOf : ∀ name, name.file = file → a.bindingOf name = b.bindingOf name
  calledBody : ∀ call, call.file = file → a.calledBody call = b.calledBody call
  declaredType : ∀ body, body.file = file → a.declaredType body = b.declaredType body

theorem SameIn.refl (codebase : Codebase) (file : FileNumber) : SameIn file codebase codebase :=
  ⟨rfl, rfl, fun _ _ => rfl, fun _ _ => rfl, fun _ _ => rfl⟩

end Codebase

/-- What comes of a reading may be gone on with alike. -/
theorem Reads.bind_congr {α β : Type} {fails : Prop} {read : Reading α} {P : α → Prop}
    {f g : α → Inquiry β} (h : Reads fails read P) (hfg : ∀ a, P a → f a = g a) :
    ((read : Inquiry α) >>= f) = ((read : Inquiry α) >>= g) := by
  cases read with
  | ok a => exact hfg a (h.ok a rfl)
  | error foreign => rfl

namespace Codebase.SameIn

variable {file : FileNumber} {a b : Codebase}

/-! ### The rules of two codebases -/

theorem typeOfBody (h : SameIn file a b) {body : Filed Node} (hbody : body.file = file) :
    typeOfBody a body = typeOfBody b body := by
  unfold LuaTypes.typeOfBody
  rw [h.declaredType body hbody]

theorem typeOfClosure (h : SameIn file a b) {closure : Filed Node}
    (hclosure : closure.file = file) : typeOfClosure a closure = typeOfClosure b closure := by
  refine (Reads.of_ok (P := fun _ => True) fun _ _ => trivial).bind_congr fun body _ => ?_
  cases body with
  | none => rfl
  | some body => exact h.typeOfBody hclosure

theorem typeOfName (h : SameIn file a b) (hstays : a.StaysInFiles) {name : Filed Node}
    (hname : name.file = file) : typeOfName a name = typeOfName b name := by
  unfold LuaTypes.typeOfName
  rw [← h.bindingOf name hname]
  refine ((hstays.file file).bindingOf hname).bind_congr fun binding hbinding => ?_
  cases binding with
  | none => rfl
  | some binding =>
    cases binding with
    | initializer e => rfl
    | function body => exact h.typeOfBody (hbinding _ rfl)
    | annotated ty => rfl

theorem typeOfExport (h : SameIn file a b) : typeOfExport a file = typeOfExport b file := by
  unfold LuaTypes.typeOfExport
  rw [h.root]

theorem typeOfOwner (h : SameIn file a b) (callee : Filed Expr) :
    typeOfOwner a callee = typeOfOwner b callee := by
  unfold LuaTypes.typeOfOwner
  rw [h.conventions]

theorem typeOfCallee (h : SameIn file a b) {call : Filed Node} (hcall : call.file = file)
    (callee : Ty) : typeOfCallee a call callee = typeOfCallee b call callee := by
  unfold LuaTypes.typeOfCallee
  rw [h.calledBody call hcall]

theorem typeOfCall (h : SameIn file a b) {call : Filed Node} (hcall : call.file = file) :
    typeOfCall a .ownFile call = typeOfCall b .ownFile call := by
  have hcallee := h.typeOfCallee hcall
  unfold LuaTypes.typeOfCall
  simp only [h.conventions, h.typeOfOwner, hcallee]
  rfl

/-- Where no modules are followed, the rules of expressions of the file ask the same. -/
theorem typeOf (h : SameIn file a b) (hstays : a.StaysInFiles) {e : Filed Expr}
    (he : e.file = file) : typeOf a .ownFile e = typeOf b .ownFile e := by
  unfold LuaTypes.typeOf
  dsimp only
  split
  · rfl
  · exact h.typeOfName hstays he
  · rfl
  · rfl
  · rfl
  · exact h.typeOfCall he
  · rfl
  · exact h.typeOfClosure he
  · rfl

theorem inquiry (h : SameIn file a b) {question : Question} (hfile : question.file = file) :
    question.inquiry a .ownFile = question.inquiry b .ownFile := by
  cases question with
  | typeOf e => rfl
  | unary un => rfl
  | binary bin => rfl
  | call node => exact h.typeOfCall hfile
  | body node => exact h.typeOfBody hfile
  | returns node => rfl
  | exported other =>
    cases hfile
    exact h.typeOfExport

/-! ### Two runs below a path -/

variable {path : List Key} {memo memo' : Option Memo}

theorem probe_alike_of_inside {budget : Nat} {e : Filed Expr} (he : e.file = file)
    (hmemo : Memo.AgreeWithin file memo memo')
    (hinside : (a.inside .ownFile budget path e memo).Alike file
      (b.inside .ownFile budget path e memo')) :
    (a.probe .ownFile budget path e memo).Alike file (b.probe .ownFile budget path e memo') := by
  have hentry := hmemo.entries (Expr.key e) he
  rcases a.probe_cases .ownFile budget path e memo with
    ⟨ty, hknown, hprobe⟩ | ⟨depth, hnone, hdepth, hprobe⟩ | ⟨hnone, hnew, hprobe⟩ <;> rw [hprobe]
  · rw [probe_of_known (hentry ▸ hknown)]
    exact ⟨rfl, rfl, hmemo⟩
  · rw [probe_of_refused (hentry ▸ hnone) hdepth]
    exact ⟨rfl, rfl, hmemo⟩
  · rw [probe_of_entered (hentry ▸ hnone) hnew]
    exact hinside.leave _ _

theorem inside_alike (h : SameIn file a b) (hstays : a.StaysInFiles) (budget : Nat)
    (path : List Key) {e : Filed Expr} (he : e.file = file)
    (hmemo : Memo.AgreeWithin file memo memo') :
    (a.inside .ownFile budget path e memo).Alike file (b.inside .ownFile budget path e memo') := by
  induction budget generalizing path e memo memo' with
  | zero => exact ⟨rfl, rfl, hmemo⟩
  | succ budget ih =>
    rw [inside_succ, inside_succ, ← h.typeOf hstays he]
    refine ((hstays.file file).typeOf he).probe_alike ?_ hmemo
    intro e' left left' he' hleft
    exact probe_alike_of_inside he' hleft (ih (Expr.key e :: path) he' hleft)

/-- Within equal budgets two runs find the same. -/
theorem probe_alike (h : SameIn file a b) (hstays : a.StaysInFiles) (budget : Nat)
    (path : List Key) {e : Filed Expr} (he : e.file = file)
    (hmemo : Memo.AgreeWithin file memo memo') :
    (a.probe .ownFile budget path e memo).Alike file (b.probe .ownFile budget path e memo') :=
  probe_alike_of_inside he hmemo (h.inside_alike hstays budget path he hmemo)

/-- Within equal budgets two requests find the same. -/
theorem foundWithin_alike (h : SameIn file a b) (hstays : a.StaysInFiles) (budget : Nat)
    {turn : Turn} (hturn : turn.isWithin file = true) (hmemo : Memo.AgreeWithin file memo memo') :
    (a.foundWithin budget turn memo).Alike file (b.foundWithin budget turn memo') := by
  obtain ⟨reach, steps, question⟩ := turn
  obtain ⟨rfl, hfile⟩ := Turn.isWithin_iff.1 hturn
  have hlies : question.LiesIn a fun node => node.file = file := hfile ▸ question.liesIn_file a
  have hlook (path : List Key) (e : Filed Expr) (left left' : Option Memo) (he : e.file = file)
      (hleft : Memo.AgreeWithin file left left') :
      (a.probe .ownFile budget path e left).Alike file (b.probe .ownFile budget path e left') :=
    h.probe_alike hstays budget path he hleft
  simp only [foundWithin, ← h.inquiry hfile]
  exact ((hstays.file file).inquiry hlies).probe_alike (hlook _) hmemo

end Codebase.SameIn

/-! ### Budgets -/

namespace Codebase

/-- The nodes that are asked about are nodes of the codebase. -/
def HasQuestion (codebase : Codebase) (question : Question) : Prop :=
  question.LiesIn codebase codebase.HasNode

/-- A file has the nodes that its root lists. -/
theorem hasNode_iff_root {codebase : Codebase} {node : Filed Node} :
    codebase.HasNode node ↔
      ∃ root, codebase.root? node.file = some root ∧ node.value ∈ root.preorder := by
  constructor
  · rintro ⟨tree, htree, hnode⟩
    obtain ⟨root, hroot, hnodes⟩ := Tree.exists_root_of_mem_nodes hnode
    refine ⟨root, ?_, hnodes ▸ hnode⟩
    simp [root?, htree, hroot]
  · rintro ⟨root, hroot, hnode⟩
    obtain ⟨tree, htree, hmem⟩ := hasNode_root hroot
    exact ⟨tree, htree, Tree.preorder_mem_nodes hmem hnode⟩

theorem SameIn.hasNode {file : FileNumber} {a b : Codebase} (h : SameIn file a b)
    {node : Filed Node} (hfile : node.file = file) (hnode : a.HasNode node) : b.HasNode node := by
  subst hfile
  rw [hasNode_iff_root] at *
  rwa [← h.root]

theorem SameIn.hasQuestion {file : FileNumber} {a b : Codebase} (h : SameIn file a b)
    {question : Question} (hfile : question.file = file) (hquestion : a.HasQuestion question) :
    b.HasQuestion question := by
  cases question with
  | exported other => exact fun _ => hasNode_root
  | _ => exact h.hasNode hfile hquestion

namespace StaysInFiles

variable {codebase : Codebase} {file : FileNumber} {turn : Turn}

/-- The budget of the codebase is enough for requests that stay in a file. -/
theorem foundWithin_ne_exhausted (h : codebase.StaysInFiles) (hturn : turn.isWithin file = true)
    (hquestion : codebase.HasQuestion turn.question) (memo : Option Memo) :
    (codebase.foundWithin codebase.budget turn memo).outcome ≠ .exhausted := by
  obtain ⟨reach, steps, question⟩ := turn
  obtain ⟨rfl, -⟩ := Turn.isWithin_iff.1 hturn
  apply (h.nodes.inquiry hquestion).probe_ne_exhausted
  intro e left he
  exact h.nodes.probe_ne_exhausted he .nil (codebase.ncard_keysOff_le _) left

/-- A larger budget changes nothing. -/
theorem foundWithin_of_le (h : codebase.StaysInFiles) (hturn : turn.isWithin file = true)
    (hquestion : codebase.HasQuestion turn.question) {larger : Nat} (hle : codebase.budget ≤ larger)
    (memo : Option Memo) :
    codebase.foundWithin larger turn memo = codebase.foundWithin codebase.budget turn memo := by
  have hout := h.foundWithin_ne_exhausted hturn hquestion memo
  exact Inquiry.probe_mono (fun e left hne => probe_mono hle hne) _ memo hout

/-- Requests that follow modules, or are about other files, leave the entries of a file alone. -/
theorem take_other (h : codebase.StaysInFiles) (hturn : turn.isWithin file = false)
    (memo : Option Memo) : Memo.AgreeWithin file memo (codebase.take turn memo).2 := by
  obtain ⟨reach, steps, question⟩ := turn
  cases reach with
  | full =>
    have hall := codebase.enclosure_all Ty.stable_true (fun _ => trivial) (fun _ => trivial) .full
    refine (hall.run_sound ⟨fun _ _ _ => trivial, ?_⟩ (hall.inquiry (question.liesIn_all _)) _
      (Turn.consistent_trail _) (Turn.reach_trail _) (.refl memo)).2
    intro left e ty hleft _ _
    exact hleft.insert_other (.inl rfl) ty
  | ownFile =>
    have hfile : question.file ≠ file := by simpa [Turn.isWithin] using hturn
    have hown := h.file question.file
    refine (hown.run_sound ⟨fun _ _ _ => trivial, ?_⟩ (hown.inquiry (question.liesIn_file _)) _
      (Turn.consistent_trail _) (Turn.reach_trail _) (.refl memo)).2
    intro left e ty hleft he _
    exact hleft.insert_other (.inr fun hkey => hfile (he.symm.trans hkey)) ty

end StaysInFiles

/-- Requests that stay in a file are answered alike in codebases that say the same of it, and leave
memos that hold the same of it. -/
theorem SameIn.take_alike {file : FileNumber} {a b : Codebase} (h : SameIn file a b)
    (ha : a.StaysInFiles) (hb : b.StaysInFiles) {turn : Turn} (hturn : turn.isWithin file = true)
    (hquestion : a.HasQuestion turn.question) {memo memo' : Option Memo}
    (hmemo : Memo.AgreeWithin file memo memo') :
    (a.take turn memo).1 = (b.take turn memo').1 ∧
      Memo.AgreeWithin file (a.take turn memo).2 (b.take turn memo').2 := by
  have hquestion' := h.hasQuestion (Turn.isWithin_iff.1 hturn).2 hquestion
  -- the budgets may differ, but each of them is enough
  obtain ⟨hout, -, hleft⟩ := h.foundWithin_alike ha (max a.budget b.budget) hturn hmemo
  rw [ha.foundWithin_of_le hturn hquestion (Nat.le_max_left _ _),
    hb.foundWithin_of_le hturn hquestion' (Nat.le_max_right _ _)] at hout hleft
  rw [take, take, takeWithin_eq, takeWithin_eq]
  exact ⟨hout, hleft⟩

/-! ### Histories -/

section Histories

variable {codebase a b : Codebase} {file : FileNumber}

/-- Of a history only those requests count that stay in the file, and of the memo only what it holds
of the file. -/
theorem StaysInFiles.answersWithin_filter (h : codebase.StaysInFiles) (turns : List Turn)
    {memo memo' : Option Memo} (hmemo : Memo.AgreeWithin file memo memo') :
    codebase.answersWithin file turns memo =
      codebase.answersWithin file (turns.filter (Turn.isWithin file)) memo' := by
  induction turns generalizing memo memo' with
  | nil => rfl
  | cons turn rest ih =>
    by_cases hturn : turn.isWithin file = true
    · obtain ⟨hout, -, hleft⟩ :=
        (SameIn.refl codebase file).foundWithin_alike h codebase.budget hturn hmemo
      rw [List.filter_cons_of_pos hturn]
      simp only [answersWithin, hturn, if_true, take, takeWithin_eq]
      rw [hout, ih hleft]
    · have hother := h.take_other (by simpa using hturn) memo
      rw [List.filter_cons_of_neg hturn]
      simp only [answersWithin, hturn]
      exact ih (hother.symm.trans hmemo)

/-- Where all requests stay in the file, two histories are answered alike. -/
theorem SameIn.answersWithin_alike (h : SameIn file a b) (ha : a.StaysInFiles)
    (hb : b.StaysInFiles) {turns : List Turn} (hturns : ∀ turn ∈ turns, turn.isWithin file = true)
    (hquestions : ∀ turn ∈ turns, a.HasQuestion turn.question) {memo memo' : Option Memo}
    (hmemo : Memo.AgreeWithin file memo memo') :
    a.answersWithin file turns memo = b.answersWithin file turns memo' := by
  induction turns generalizing memo memo' with
  | nil => rfl
  | cons turn rest ih =>
    obtain ⟨hturn, hrest⟩ := List.forall_mem_cons.1 hturns
    obtain ⟨hquestion, hquestions⟩ := List.forall_mem_cons.1 hquestions
    obtain ⟨hout, hleft⟩ := h.take_alike ha hb hturn hquestion hmemo
    simp only [answersWithin, hturn, if_true]
    rw [hout, ih hrest hquestions hleft]

/-- The requests of a history that stay in the file ask about nodes of the codebase. -/
def HasTurns (codebase : Codebase) (file : FileNumber) (turns : List Turn) : Prop :=
  ∀ turn ∈ turns, turn.isWithin file = true → codebase.HasQuestion turn.question

/-- Two histories with the same requests that stay in the file are answered alike. -/
theorem SameIn.answersWithin_eq (h : SameIn file a b) (ha : a.StaysInFiles) (hb : b.StaysInFiles)
    {turns turns' : List Turn} (hturns : a.HasTurns file turns)
    (hfilter : turns.filter (Turn.isWithin file) = turns'.filter (Turn.isWithin file))
    {memo memo' : Option Memo} (hmemo : Memo.AgreeWithin file memo memo') :
    a.answersWithin file turns memo = b.answersWithin file turns' memo' := by
  rw [ha.answersWithin_filter turns hmemo, hb.answersWithin_filter turns' (.refl memo'), ← hfilter]
  apply h.answersWithin_alike ha hb _ _ (.refl memo')
  · intro turn hmem
    exact (List.mem_filter.1 hmem).2
  · intro turn hmem
    obtain ⟨hmem, hturn⟩ := List.mem_filter.1 hmem
    exact hturns turn hmem hturn

/-- No request that stays in the file uses the budget up. -/
theorem StaysInFiles.answersWithin_ne_exhausted (h : codebase.StaysInFiles) {turns : List Turn}
    (hturns : codebase.HasTurns file turns) (memo : Option Memo) :
    ∀ outcome ∈ codebase.answersWithin file turns memo, outcome ≠ .exhausted := by
  induction turns generalizing memo with
  | nil => exact nofun
  | cons turn rest ih =>
    obtain ⟨hturn, hrest⟩ := List.forall_mem_cons.1 hturns
    intro outcome hmem
    by_cases hwithin : turn.isWithin file = true
    · simp only [answersWithin, hwithin, if_true, take, takeWithin_eq] at hmem
      rcases List.mem_cons.1 hmem with rfl | hmem
      · exact h.foundWithin_ne_exhausted hwithin (hturn hwithin) memo
      · exact ih hrest _ outcome hmem
    · simp only [answersWithin, hwithin] at hmem
      exact ih hrest _ outcome hmem

end Histories

end Codebase

end LuaTypes
