/-! The JavaScript library that the scripts of templates call. -/
namespace Stencil.Artifact

def libraryLines : List String :=
  ["const yate = (() => \x7b",
   "\tconst isTruthy = (value) =>",
   "\t\tvalue !== undefined && value !== null && value !== false && value !== 0 && value !== '';",
   "",
   "\tconst isPresent = (value) => \x7b",
   "\t\tif (!isTruthy(value)) \x7b",
   "\t\t\treturn false;",
   "\t\t\x7d",
   "\t\tif (Array.isArray(value)) \x7b",
   "\t\t\treturn value.length > 0;",
   "\t\t\x7d",
   "\t\tif (typeof value === 'object') \x7b",
   "\t\t\treturn Object.keys(value).length > 0;",
   "\t\t\x7d",
   "\t\treturn true;",
   "\t\x7d;",
   "",
   "\tconst text = (value) => \x7b",
   "\t\tif (value === undefined || value === null) \x7b",
   "\t\t\treturn '';",
   "\t\t\x7d",
   "\t\tif (typeof value === 'object') \x7b",
   "\t\t\treturn JSON.stringify(value);",
   "\t\t\x7d",
   "\t\treturn String(value);",
   "\t\x7d;",
   "",
   "\tconst clear = (node, name) => \x7b",
   "\t\tnode[name] = typeof node[name] === 'boolean' ? false : '';",
   "\t\x7d;",
   "",
   "\tconst parentOf = (name, anchor) => \x7b",
   "\t\tif (!anchor.parentNode) \x7b",
   "\t\t\tthrow new Error(`Anchor for template '$\x7bname\x7d' is not attached to a parent`);",
   "\t\t\x7d",
   "\t\treturn anchor.parentNode;",
   "\t\x7d;",
   "",
   "\tconst pool = (templates) => \x7b",
   "\t\tconst handle = \x7b",
   "\t\t\tget: (name, data) => \x7b",
   "\t\t\t\tconst factory = templates[name];",
   "\t\t\t\tif (!factory) \x7b",
   "\t\t\t\t\tthrow new Error(`Unknown template '$\x7bname\x7d'`);",
   "\t\t\t\t\x7d",
   "\t\t\t\tconst instance = factory(handle);",
   "\t\t\t\tinstance.dom();",
   "\t\t\t\tif (data) \x7b",
   "\t\t\t\t\tinstance.update(data);",
   "\t\t\t\t\x7d",
   "\t\t\t\treturn instance;",
   "\t\t\t\x7d,",
   "\t\t\trelease: (name, instance) => \x7b",
   "\t\t\t\tinstance.remove();",
   "\t\t\t\treturn instance;",
   "\t\t\t\x7d",
   "\t\t\x7d;",
   "",
   "\t\treturn handle;",
   "\t\x7d;",
   "",
   "\tconst renderChildren = (name, anchor, data, pool, children) => \x7b",
   "\t\tlet items = data;",
   "\t\tif (items === undefined || items === null) \x7b",
   "\t\t\titems = [];",
   "\t\t\x7d else if (!Array.isArray(items)) \x7b",
   "\t\t\tconsole.warn(`for over non-sequence value in $\x7bname\x7d`);",
   "\t\t\titems = [];",
   "\t\t\x7d",
   "",
   "\t\twhile (children.length > items.length) \x7b",
   "\t\t\tpool.release(name, children.pop());",
   "\t\t\x7d",
   "",
   "\t\tchildren.forEach((child, i) => child.update(items[i]));",
   "",
   "\t\tconst existing = children.length;",
   "\t\tif (existing < items.length) \x7b",
   "\t\t\tconst parent = parentOf(name, anchor);",
   "\t\t\tconst batch = document.createDocumentFragment();",
   "",
   "\t\t\tfor (let i = existing; i < items.length; i++) \x7b",
   "\t\t\t\tconst instance = pool.get(name);",
   "\t\t\t\tbatch.appendChild(instance.dom());",
   "\t\t\t\tinstance.update(items[i]);",
   "\t\t\t\tchildren.push(instance);",
   "\t\t\t\x7d",
   "",
   "\t\t\tparent.insertBefore(batch, anchor);",
   "\t\t\x7d",
   "\t\x7d;",
   "",
   "\tconst renderChild = (name, anchor, value, pool, children) => \x7b",
   "\t\trenderChildren(name, anchor, isTruthy(value) ? [value] : [], pool, children);",
   "\t\x7d;",
   "",
   "\tconst renderWhen = (name, anchor, value, pool, children) => \x7b",
   "\t\tif (!isPresent(value)) \x7b",
   "\t\t\tif (children.length > 0) \x7b",
   "\t\t\t\tpool.release(name, children.pop());",
   "\t\t\t\x7d",
   "\t\t\treturn;",
   "\t\t\x7d",
   "",
   "\t\tif (children.length > 0) \x7b",
   "\t\t\tchildren[0].update(value);",
   "\t\t\treturn;",
   "\t\t\x7d",
   "",
   "\t\tconst parent = parentOf(name, anchor);",
   "\t\tconst instance = pool.get(name);",
   "\t\tchildren.push(instance);",
   "\t\tparent.insertBefore(instance.dom(), anchor);",
   "\t\tinstance.update(value);",
   "\t\x7d;",
   "",
   "\treturn \x7b pool, renderChild, renderChildren, renderWhen, text, clear \x7d;",
   "\x7d)();",
   "",
   "if (typeof window !== 'undefined') \x7b",
   "\twindow.yate = yate;",
   "\x7d",
   "",
   "if (typeof module !== 'undefined' && module.exports) \x7b",
   "\tmodule.exports = yate;",
   "\x7d"]

/-- The text of the library; every line is ended. -/
def library : String := String.join (libraryLines.map (· ++ "\n"))

end Stencil.Artifact
