/-! Names with a meaning of their own: the namespaces, the tags that are always
vector graphics, and the attributes that are set as properties of the element. -/
namespace Stencil.Vocabulary

def svgNamespace : String := "http://www.w3.org/2000/svg"

def xlinkNamespace : String := "http://www.w3.org/1999/xlink"

/-- The one attribute that belongs to the link namespace, under the name `href`. -/
def xlinkHref : String := "xlink:href"

/-- Children of this element leave vector graphics again. -/
def foreignObject : String := "foreignObject"

/-- Tags that also occur outside of vector graphics (`a`, `title`, `script`,
`style`) are not listed: they follow their parent. -/
def svgTags : List String :=
  ["svg", "rect", "circle", "ellipse", "line", "polyline", "polygon", "path", "text",
   "g", "use", "defs", "animate", "animateMotion", "animateTransform", "clipPath",
   "desc", "discard", "feBlend", "feColorMatrix", "feComponentTransfer", "feComposite",
   "feConvolveMatrix", "feDiffuseLighting", "feDisplacementMap", "feDistantLight",
   "feDropShadow", "feFlood", "feFuncA", "feFuncB", "feFuncG", "feFuncR",
   "feGaussianBlur", "feImage", "feMerge", "feMergeNode", "feMorphology", "feOffset",
   "fePointLight", "feSpecularLighting", "feSpotLight", "feTile", "feTurbulence",
   "filter", "foreignObject", "image", "linearGradient", "marker", "mask", "metadata",
   "mpath", "pattern", "radialGradient", "set", "stop", "switch", "symbol",
   "textPath", "tspan", "view"]

def isSvgTag (tag : String) : Bool := svgTags.contains tag

/-- Attributes set as properties, whatever the tag. -/
def commonProperties : List String := ["id", "title"]

/-- Attributes set as properties, by tag. -/
def tagProperties : List (String × List String) :=
  [("input", ["name", "value", "type", "checked", "selected"]),
   ("a", ["href", "target"]),
   ("form", ["method", "action"]),
   ("img", ["src", "srcset", "alt", "width", "height"])]

def isProperty (tag name : String) : Bool :=
  commonProperties.contains name ||
    tagProperties.any fun p => p.1 == tag && p.2.contains name

end Stencil.Vocabulary
