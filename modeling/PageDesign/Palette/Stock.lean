import PageDesign.Palette.Basic

/-! # The stock palette

The palette that every page starts with: the basic controls, a wrapped component,
and an empty section for the components of a project.
-/
namespace PageDesign
namespace Palette

/-- The canvas state of a control that holds no other elements. -/
def controlCanvas : Canvas :=
  { size := some {}, layout := some .block, isContainer := some false }

/-- A component whose template holds a single text. -/
def textOffer (name label : String) (group : Group) (attributes : List Attribute)
    (content : String) (canvas : Canvas) : Offer :=
  { name, label, group
    template :=
      { info := { tag := name, attributes, canvas := some canvas }
        children := [.text content] } }

/-- A button. -/
def button : Offer :=
  textOffer "el-button" "按钮" .basic
    [⟨"type", .text "primary"⟩, ⟨"size", .text "default"⟩, ⟨"disabled", .flag false⟩]
    "按钮" controlCanvas

/-- An input field. -/
def inputField : Offer :=
  textOffer "el-input" "输入框" .basic
    [⟨"type", .text "text"⟩, ⟨"size", .text "default"⟩, ⟨"disabled", .flag false⟩,
      ⟨"clearable", .flag false⟩, ⟨"placeholder", .text "请输入"⟩, ⟨"model-value", .text ""⟩]
    "输入框" controlCanvas

/-- A card, as wide as what it stands in. -/
def card : Offer :=
  textOffer "el-card" "卡片" .high [⟨"shadow", .text "hover"⟩] "卡片内容"
    { size := some { width := some (.css "100%") }, isContainer := some true }

/-- The stock palette. -/
def stock : Palette where
  sections :=
    [{ group := .basic, label := "基础组件", offers := [button, inputField] },
      { group := .high, label := "高阶组件", offers := [card] },
      { group := .business, label := "业务组件", offers := [] }]

end Palette
end PageDesign
